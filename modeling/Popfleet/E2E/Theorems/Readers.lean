import Popfleet.E2E.Theorems.Handling

open Proto Program

namespace E2E

variable {κ : Type} [DecidableEq κ] {hkdf : Bytes → String → κ} {e2eKey : Bytes} {σ σ' : State κ}
  {op o o' : Op κ} {i : Input} {ops rest : List (Op κ)} {r : Req κ} {m : Msg} {conn : Nat} {sid : String}
  {p : Pty κ} {c c' : Config (State κ) (Op κ)} {l : Label (Req κ) Input} {t t' : Tid}

-- The session whose loop a section belongs to.
def Op.reader? : Op κ → Option Nat
  | .hello conn _ | .helloOk conn | .readJSON conn | .killAll conn | .openPty conn _ | .openCmd conn _
  | .spawn conn _ _ _ | .lookup conn _ | .setsize conn _ | .closePty conn _ => some conn
  | .insert p | .goPump p | .write p _ | .kill p => some p.conn
  | _ => none

-- The PTY that a section was given.
def Op.pty? : Op κ → Option (Pty κ)
  | .insert p | .goPump p | .write p _ | .kill p | .pump p _ _ | .flush p _ _ | .sendOut p _ _ | .wait p
  | .forget p => some p
  | _ => none

-- The sections that a session handles a frame with.
def Op.handles : Op κ → Bool
  | .openPty _ _ | .openCmd _ _ | .spawn _ _ _ _ | .insert _ | .goPump _ | .lookup _ _ | .write _ _
  | .setsize _ _ | .closePty _ _ | .kill _ => true
  | _ => false

-- The sections that come last in a thread.
def Op.last : Op κ → Bool
  | .hello _ _ | .helloOk _ | .readJSON _ | .killAll _ => true
  | _ => false

-- A session handles one frame at a time, and it reads the next one last.
def Op.Before (o o' : Op κ) : Prop :=
  o.last = false ∧ (o.handles → o'.handles = false)

-- After a frame the session reads the next one.
def Op.Continues (o o' : Op κ) : Prop :=
  o.handles ∧ ∃ conn, o.reader? = some conn ∧ o' = .readJSON conn

-- A PTY is found in the session that it was opened for.
def State.Placed (σ : State κ) : Prop :=
  ∀ conn sid p, (σ.ptys conn).get? sid = some p → p.conn = conn

-- Each session has a single thread.
structure Readers (c : Config (State κ) (Op κ)) : Prop where
  fresh : ∀ {o conn}, c.Pending o → o.reader? = some conn → conn < c.shared.next
  owner : ∀ {t t' o o' conn}, o ∈ c.procs t → o.reader? = some conn → o' ∈ c.procs t' →
    o'.reader? = some conn → t = t'
  order : ∀ t, (c.procs t).Pairwise Op.Before
  loop  : ∀ t, Followed Op.Continues (c.procs t)

omit [DecidableEq κ] in
theorem Op.quiet_of_isPage (h : o.isPage) :
    o.reader? = none ∧ o.pty? = none ∧ o.handles = false ∧ o.last = false := by
  cases o <;> first | contradiction | exact ⟨rfl, rfl, rfl, rfl⟩

theorem State.Placed.exec (h : σ.Placed) (e : Exec hkdf e2eKey σ op i σ' ops) : σ'.Placed := by
  intro conn sid p hs
  cases e.of_ptys hs
  case inl hs  => exact h conn sid p hs
  case inr new => exact new.right.left.symm

theorem placed_reachable (h : (program hkdf e2eKey).system.Reachable c) : c.shared.Placed := by
  refine h.invariant (I := fun c => c.shared.Placed) ?_ ?_
  case refine_1 =>
    rintro c ⟨⟨cipher, hi⟩, _⟩
    rw [hi]
    exact fun _ _ _ hs => by simp at hs
  case refine_2 =>
    intro c l c' _ hi _ e
    replace e := Step.of e
    cases e
    case start e => exact fun conn sid p hs => hi conn sid p (start_ptys e ▸ hs)
    case step e  => exact hi.exec (Exec.of e)

theorem Exec.next_le (e : Exec hkdf e2eKey σ op i σ' ops) : σ.next ≤ σ'.next := by
  cases e
  case spawned => exact Nat.le_succ _
  all_goals exact Nat.le_refl _

theorem start_next_le (e : start e2eKey σ r = some (σ', ops)) : σ.next ≤ σ'.next := by
  revert e
  fun_cases start e2eKey σ r <;> intro e <;> cases e
  case case1 | case4 => exact Nat.le_succ _
  all_goals exact Nat.le_refl _

theorem next_le_of_step (e : (program hkdf e2eKey).system.step c l = some c') :
    c.shared.next ≤ c'.shared.next := by
  replace e := Step.of e
  cases e
  case start r _ _ _ e =>
    replace e : start e2eKey c.shared r = some _ := e
    exact start_next_le e
  case step e => exact (Exec.of e).next_le

-- A section goes on with the session that it belongs to, if with any.
theorem Exec.reader? (h : σ.Placed) (e : Exec hkdf e2eKey σ op i σ' ops) :
    ∀ o ∈ ops, ∀ conn, o.reader? = some conn → op.reader? = some conn := by
  cases e
  case read conn m =>
    refine List.forall_mem_append.mpr ⟨?_, by simp [Op.reader?]⟩
    unfold handle
    split <;> simp [Op.reader?]
  case found hp => simp [Op.reader?, h _ _ _ hp]
  case page hp => exact fun o hm => by simp [Op.quiet_of_isPage (hp o hm)]
  all_goals simp_all [Op.reader?]

-- It goes on with sections in their order.
theorem Exec.order (e : Exec hkdf e2eKey σ op i σ' ops) :
    ops.Pairwise Op.Before ∧ (op.last = false → ∀ o ∈ ops, o.last = false) ∧
      (op.last = false → op.handles = false → ∀ o ∈ ops, o.handles = false) := by
  cases e
  case read conn m =>
    refine ⟨?_, by simp [Op.last], by simp [Op.last]⟩
    unfold handle
    split <;> simp [Op.Before, Op.last, Op.handles]
  case page hp =>
    have quiet : ∀ o ∈ ops, o.handles = false ∧ o.last = false :=
      fun o hm => (Op.quiet_of_isPage (hp o hm)).right.right
    refine ⟨List.pairwise_of_forall_mem_list fun o ho o' ho' => ?_, fun _ o ho => (quiet o ho).right,
      fun _ _ o ho => (quiet o ho).left⟩
    exact ⟨(quiet o ho).right, fun _ => (quiet o' ho').left⟩
  all_goals simp [Op.Before, Op.last, Op.handles]

theorem Exec.loop (e : Exec hkdf e2eKey σ op i σ' ops) (h : op.handles = false) :
    Followed Op.Continues ops := by
  cases e
  case read conn m =>
    unfold handle
    split <;> simp [Followed, Op.Continues, Op.reader?, Op.handles]
  case page hp =>
    have quiet : ∀ o ∈ ops, ∀ o', ¬o.Continues o' :=
      fun o hm o' => by simp [Op.Continues, Op.quiet_of_isPage (hp o hm)]
    exact ops.append_nil ▸ Followed.append quiet trivial
  all_goals simp_all [Followed, Op.Continues, Op.handles]

theorem start_order (e : start e2eKey σ r = some (σ', ops)) :
    ops.Pairwise Op.Before ∧ Followed Op.Continues ops ∧
      ∀ o ∈ ops, ∀ conn, o.reader? = some conn → σ.next = conn ∧ conn < σ'.next := by
  revert e
  fun_cases start e2eKey σ r <;> intro e <;> cases e <;>
    simp [Op.reader?, Followed, Op.Continues, Op.handles]

theorem Readers.start (h : Readers c) (e : E2E.start e2eKey c.shared r = some (σ', ops)) :
    Readers (c.resume t σ' ops) := by
  have ⟨order, loop, fresh⟩ := start_order e
  -- Only the new session has a new reader.
  have old {t' o conn} (ho : o ∈ (c.resume t σ' ops).procs t') (hr : o.reader? = some conn) :
      t' = t ∧ conn = c.shared.next ∨ o ∈ c.procs t' ∧ conn < c.shared.next := by
    rw [Config.resume_procs] at ho
    split at ho
    case isTrue ht  => exact .inl ⟨ht, (fresh o ho conn hr).left.symm⟩
    case isFalse ht => exact .inr ⟨ho, h.fresh ⟨t', ho⟩ hr⟩
  constructor
  case fresh =>
    rintro o conn ho hr
    cases ho.of_resume
    case inl ho => exact (fresh o ho conn hr).right
    case inr ho => exact Nat.lt_of_lt_of_le (h.fresh ho hr) (start_next_le e)
  case owner =>
    intro t₁ t₂ o₁ o₂ conn h₁ r₁ h₂ r₂
    cases old h₁ r₁
    case inl new =>
      cases old h₂ r₂
      case inl new' => exact new.left.trans new'.left.symm
      case inr kept => exact absurd kept.right (new.right ▸ Nat.lt_irrefl _)
    case inr kept =>
      cases old h₂ r₂
      case inl new   => exact absurd kept.right (new.right ▸ Nat.lt_irrefl _)
      case inr kept' => exact h.owner kept.left r₁ kept'.left r₂
  case order =>
    intro t'
    rw [Config.resume_procs]
    split
    case isTrue  => exact order
    case isFalse => exact h.order t'
  case loop =>
    intro t'
    rw [Config.resume_procs]
    split
    case isTrue  => exact loop
    case isFalse => exact h.loop t'

theorem Readers.exec (h : Readers c) (hp : c.shared.Placed) (head : c.procs t = op :: rest)
    (e : Exec hkdf e2eKey c.shared op i σ' ops) : Readers (c.resume t σ' (ops ++ rest)) := by
  have ⟨pairwise, last, handles⟩ := e.order
  have ⟨first, order⟩ := List.pairwise_cons.mp (head ▸ h.order t)
  have old {t' o conn} (ho : o ∈ (c.resume t σ' (ops ++ rest)).procs t') (hr : o.reader? = some conn) :
      ∃ o ∈ c.procs t', o.reader? = some conn := by
    rw [Config.resume_procs] at ho
    split at ho
    case isFalse => exact ⟨o, ho, hr⟩
    case isTrue ht =>
      subst ht
      cases List.mem_append.mp ho
      case inl ho => exact ⟨op, head ▸ List.mem_cons_self, e.reader? hp o ho conn hr⟩
      case inr ho => exact ⟨o, head ▸ List.mem_cons_of_mem _ ho, hr⟩
  constructor
  case fresh =>
    rintro o conn ⟨t', ho⟩ hr
    have ⟨o, ho, hr⟩ := old ho hr
    exact Nat.lt_of_lt_of_le (h.fresh ⟨t', ho⟩ hr) e.next_le
  case owner =>
    intro t₁ t₂ o₁ o₂ conn h₁ r₁ h₂ r₂
    have ⟨_, h₁, r₁⟩ := old h₁ r₁
    have ⟨_, h₂, r₂⟩ := old h₂ r₂
    exact h.owner h₁ r₁ h₂ r₂
  case order =>
    intro t'
    rw [Config.resume_procs]
    split
    case isFalse => exact h.order t'
    case isTrue =>
      refine List.pairwise_append.mpr ⟨pairwise, order, fun o ho o' ho' => ?_⟩
      have ⟨middle, alone⟩ := first o' ho'
      refine ⟨last middle o ho, fun busy => ?_⟩
      cases hop : op.handles
      case true  => exact alone hop
      case false => exact absurd busy (by simp [handles middle hop o ho])
  case loop =>
    intro t'
    have followed := h.loop t
    rw [head] at followed
    have ⟨next, loop⟩ := followed
    rw [Config.resume_procs]
    split
    case isFalse => exact h.loop t'
    case isTrue =>
      cases hop : op.handles
      case false => exact (e.loop hop).append_followed loop
      case true =>
        refine loop.append_of_mem fun o ho o' hc => ?_
        have ⟨_, conn, hr, same⟩ := hc
        exact next o' ⟨hop, conn, e.reader? hp o ho conn hr, same⟩

theorem readers_reachable (h : (program hkdf e2eKey).system.Reachable c) : Readers c := by
  refine h.invariant (I := Readers) ?_ ?_
  case refine_1 =>
    rintro c ⟨_, idle⟩
    refine ⟨?_, fun ho => ?_, fun t => idle t ▸ .nil, fun t => idle t ▸ trivial⟩
    case refine_1 =>
      rintro o conn ⟨t, ho⟩
      simp [idle t] at ho
    case refine_2 => simp [idle] at ho
  case refine_2 =>
    intro c l c' hr hi _ e
    replace e := Step.of e
    cases e
    case start e     => exact hi.start e
    case step head e => exact hi.exec (placed_reachable hr) head (Exec.of e)

omit [DecidableEq κ] in
-- A session handles a frame with one section at a time.
theorem Readers.sole (h : Readers c) (ho : o ∈ c.procs t) (hb : o.handles) (hr : o.reader? = some conn)
    (ho' : o' ∈ c.procs t') (hb' : o'.handles) (hr' : o'.reader? = some conn) : t = t' ∧ o = o' := by
  obtain rfl := h.owner ho hr ho' hr'
  have one {o o' : Op κ} (h : o.Before o') (ho : o.handles) (ho' : o'.handles) : False := by
    simp [h.right ho] at ho'
  refine ⟨rfl, List.Pairwise.forall_of_forall_of_flip (R := fun o o' => o.handles → o'.handles → o = o')
    (fun _ _ _ _ => rfl) ?_ ?_ ho ho' hb hb'⟩
  case refine_1 => exact (h.order t).imp fun before b b' => (one before b b').elim
  case refine_2 => exact (h.order t).imp fun before b' b => (one before b b').elim

omit [DecidableEq κ] in
-- While it runs a section that handles a frame, a session has no other.
theorem Readers.alone (h : Readers c) (head : c.procs t = op :: rest) (hb : op.handles)
    (hr : op.reader? = some conn) (hp : (c.resume t σ (ops ++ rest)).Pending o) (hb' : o.handles)
    (hr' : o.reader? = some conn) : o ∈ ops := by
  have ⟨first, _⟩ := List.pairwise_cons.mp (head ▸ h.order t)
  have ⟨t', ho⟩ := hp
  rw [Config.resume_procs] at ho
  split at ho
  case isFalse hne => exact absurd (h.owner ho hr' (head ▸ List.mem_cons_self) hr) hne
  case isTrue =>
    cases List.mem_append.mp ho
    case inl ho => exact ho
    case inr ho => exact absurd hb' (by simp [(first o ho).right hb])

end E2E
