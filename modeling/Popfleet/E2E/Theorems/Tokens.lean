import Popfleet.E2E.Theorems.Known

open Proto Program

namespace E2E

variable {κ : Type} [DecidableEq κ] {hkdf : Bytes → String → κ} {e2eKey : Bytes} {σ σ' : State κ}
  {op o : Op κ} {i : Input} {ops rest : List (Op κ)} {r : Req κ} {p p' : Pty κ}
  {c c' : Config (State κ) (Op κ)} {t : Tid}

-- The section belongs to the goroutine of a PTY, or leads to it.
def Op.pumps (p : Pty κ) : Op κ → Bool
  | .insert p' | .goPump p' | .pump p' _ _ | .flush p' _ _ | .sendOut p' _ _ | .wait p'
  | .forget p' => p' = p
  | _ => false

-- A PTY has at most one goroutine, which runs or is about to.
structure Tokens (c : Config (State κ) (Op κ)) : Prop where
  single : ∀ p, c.Unique (Op.pumps p)
  nodup  : c.shared.pumps.Nodup
  apart  : ∀ p ∈ c.shared.pumps, ∀ o, c.Pending o → ¬o.pumps p

theorem Op.pty?_of_pumps (h : o.pumps p) : o.pty? = some p := by
  cases o <;> first | contradiction | exact congrArg some (of_decide_eq_true h)

-- Only a section that starts a process or a goroutine does not just pass its PTY on.
theorem Exec.pumps (e : Exec hkdf e2eKey σ op i σ' ops) :
    (σ'.pumps = σ.pumps ∧ ∀ p, ops.countP (Op.pumps p) ≤ [op].countP (Op.pumps p)) ∨
      (∃ p, op = .goPump p ∧ σ'.pumps = p :: σ.pumps ∧ ops = []) ∨
      ∃ p line, op = .spawn p.conn p.sid p.enc line ∧ p.ptr = σ.next ∧ σ'.pumps = σ.pumps ∧
        ops = [.insert p] := by
  cases e
  case goPump p => exact .inr (.inl ⟨p, rfl, rfl, rfl⟩)
  case spawned line p hp =>
    subst hp
    exact .inr (.inr ⟨_, line, rfl, rfl, rfl, rfl⟩)
  case read conn m =>
    refine .inl ⟨rfl, fun p => ?_⟩
    unfold handle
    split <;> simp [Op.pumps]
  case page hp =>
    refine .inl ⟨rfl, fun p => ?_⟩
    have none : ops.countP (Op.pumps p) = 0 := by
      refine List.countP_eq_zero.mpr fun o hm hop => ?_
      simpa [Op.quiet_of_isPage (hp o hm)] using Op.pty?_of_pumps hop
    exact none ▸ Nat.zero_le _
  all_goals exact .inl ⟨rfl, fun p => by simp [Op.pumps, List.countP_cons]⟩

theorem start_pumps (e : start e2eKey σ r = some (σ', ops)) :
    (σ'.pumps = σ.pumps ∧ ∀ p, ∀ o ∈ ops, ¬o.pumps p) ∨
      ∃ p, p ∈ σ.pumps ∧ σ'.pumps = σ.pumps.erase p ∧ ops = [.pump p [] false] := by
  revert e
  fun_cases start e2eKey σ r <;> intro e <;> cases e
  case case2 p hp => exact .inr ⟨p, hp, rfl, rfl⟩
  all_goals exact .inl ⟨rfl, by simp [Op.pumps]⟩

-- A PTY waits for its goroutine until that starts.

theorem start_waiting (hp : p ∈ σ.pumps) (e : start e2eKey σ r = some (σ', ops)) :
    p ∈ σ'.pumps ∨ .pump p [] false ∈ ops := by
  obtain ⟨same, _⟩ | ⟨q, _, erased, rfl⟩ := start_pumps e
  case inl => exact .inl (same ▸ hp)
  case inr =>
    by_cases same : p = q
    case pos => exact .inr (same ▸ List.mem_singleton_self _)
    case neg => exact .inl (erased ▸ (List.mem_erase_of_ne same).mpr hp)

theorem exec_waiting (hp : p ∈ σ.pumps) (e : exec hkdf e2eKey σ op i = some (σ', ops)) : p ∈ σ'.pumps := by
  obtain ⟨same, _⟩ | ⟨q, _, pushed, _⟩ | ⟨_, _, _, _, same, _⟩ := (Exec.of e).pumps
  case inl     => exact same ▸ hp
  case inr.inl => exact pushed ▸ List.mem_cons_of_mem _ hp
  case inr.inr => exact same ▸ hp

theorem Tokens.start (h : Tokens c) (e : E2E.start e2eKey c.shared r = some (σ', ops)) :
    Tokens (c.resume t σ' ops) := by
  obtain ⟨same, none⟩ | ⟨p, hp, erased, rfl⟩ := start_pumps e
  case inl =>
    constructor
    case single =>
      exact fun p => (h.single p).resume (List.countP_eq_zero.mpr (none p) ▸ Nat.zero_le _)
    case nodup => exact same ▸ h.nodup
    case apart =>
      intro p hp o ho
      cases ho.of_resume
      case inl ho => exact none p o ho
      case inr ho => exact h.apart p (same ▸ hp) o ho
  case inr =>
    constructor
    case single =>
      intro p'
      by_cases other : p = p'
      case neg => exact (h.single p').resume (by simp [Op.pumps, other])
      case pos =>
        subst other
        exact .resume_of_none (fun t o ho => h.apart p hp o ⟨t, ho⟩) (by simp [Op.pumps])
    case nodup => exact erased ▸ h.nodup.erase p
    case apart =>
      intro p' hp' o ho
      have ⟨other, kept⟩ := h.nodup.mem_erase_iff.mp (erased ▸ hp')
      cases ho.of_resume
      case inr ho => exact h.apart p' kept o ho
      case inl ho =>
        rw [List.mem_singleton.mp ho]
        simpa [Op.pumps] using other.symm

theorem Tokens.exec (h : Tokens c) (fresh : ∀ o p, c.Pending o → o.pumps p → p.ptr < c.shared.next)
    (known : Known c.shared) (head : c.procs t = op :: rest)
    (e : Exec hkdf e2eKey c.shared op i σ' ops) : Tokens (c.resume t σ' (ops ++ rest)) := by
  obtain ⟨same, passed⟩ | ⟨p, rfl, pushed, rfl⟩ | ⟨p, line, rfl, ptr, same, rfl⟩ := e.pumps
  case inl =>
    constructor
    case single =>
      intro p
      refine (h.single p).resume ?_
      rw [head, List.countP_append, ← List.singleton_append, List.countP_append]
      exact Nat.add_le_add_right (passed p) _
    case nodup => exact same ▸ h.nodup
    case apart =>
      intro p hp o ho hop
      have hp : p ∈ c.shared.pumps := same ▸ hp
      cases ho.of_step head
      case inr ho => exact h.apart p hp o ho hop
      case inl ho =>
        have counted := Nat.lt_of_lt_of_le (List.countP_pos_iff.mpr ⟨o, ho, hop⟩) (passed p)
        have ⟨o', hm, hop'⟩ := List.countP_pos_iff.mp counted
        cases List.mem_singleton.mp hm
        exact h.apart p hp op ⟨t, head ▸ List.mem_cons_self⟩ hop'
  case inr.inl =>
    have run : (Op.goPump p).pumps p := decide_eq_true rfl
    constructor
    case single => exact fun p => (h.single p).step head (by simp)
    case nodup =>
      have absent : p ∉ c.shared.pumps := fun hp => h.apart p hp _ ⟨t, head ▸ List.mem_cons_self⟩ run
      exact pushed ▸ List.nodup_cons.mpr ⟨absent, h.nodup⟩
    case apart =>
      rintro p' hp' o ⟨t', ho⟩
      cases List.mem_cons.mp (pushed ▸ hp')
      case inl same =>
        subst same
        exact (h.single p').none_of_head head run (by simp) ho
      case inr kept =>
        cases Config.Pending.of_step head ⟨t', ho⟩
        case inl ho => simp at ho
        case inr ho => exact h.apart p' kept o ho
  case inr.inr =>
    have unused {o : Op κ} (ho : c.Pending o) : ¬o.pumps p :=
      fun hop => Nat.lt_irrefl _ (ptr ▸ fresh o p ho hop)
    constructor
    case single =>
      intro p'
      by_cases other : p = p'
      case neg => exact (h.single p').step head (by simp [Op.pumps, other])
      case pos =>
        subst other
        refine .resume_of_none (fun t o ho => unused ⟨t, ho⟩) ?_
        have none : rest.countP (Op.pumps p) = 0 :=
          List.countP_eq_zero.mpr fun o ho => unused ⟨t, head ▸ List.mem_cons_of_mem _ ho⟩
        rw [List.countP_append, none]
        simp [Op.pumps]
    case nodup => exact same ▸ h.nodup
    case apart =>
      intro p' hp' o ho
      have hp' : p' ∈ c.shared.pumps := same ▸ hp'
      cases ho.of_step head
      case inr ho => exact h.apart p' hp' o ho
      case inl ho =>
        cases List.mem_singleton.mp ho
        intro hop
        obtain rfl : p = p' := of_decide_eq_true hop
        exact Nat.lt_irrefl _ (ptr ▸ known.pumps p hp')

theorem tokens_reachable (h : (program hkdf e2eKey).system.Reachable c) : Tokens c := by
  refine h.invariant (I := Tokens) ?_ ?_
  case refine_1 =>
    rintro c ⟨⟨cipher, hi⟩, idle⟩
    refine ⟨fun p => ⟨fun t => by simp [idle t], fun ho => by simp [idle] at ho⟩, by simp [hi], ?_⟩
    simp [hi]
  case refine_2 =>
    intro c l c' hr hi _ e
    have ⟨known, fresh⟩ := known_reachable hr
    replace e := Step.of e
    cases e
    case start e => exact hi.start e
    case step head e =>
      exact hi.exec (fun o p ho hop => fresh o ho p (Op.pty?_of_pumps hop)) known head (Exec.of e)

end E2E
