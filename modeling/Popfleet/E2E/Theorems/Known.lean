import Popfleet.E2E.Theorems.Readers

open Proto Program

namespace E2E

variable {κ : Type} [DecidableEq κ] {hkdf : Bytes → String → κ} {e2eKey : Bytes} {σ σ' : State κ}
  {op : Op κ} {i : Input} {ops : List (Op κ)} {r : Req κ} {conn : Nat} {p : Pty κ}
  {c : Config (State κ) (Op κ)}

-- The pointers that are found were handed out.
structure Known (σ : State κ) : Prop where
  ptys  : ∀ {conn sid p}, (σ.ptys conn).get? sid = some p → p.ptr < σ.next
  pumps : ∀ p ∈ σ.pumps, p.ptr < σ.next

theorem Known.exec (h : Known σ) (ho : ∀ p, op.pty? = some p → p.ptr < σ.next)
    (e : Exec hkdf e2eKey σ op i σ' ops) :
    Known σ' ∧ ∀ o ∈ ops, ∀ p, o.pty? = some p → p.ptr < σ'.next := by
  have ptys : ∀ {conn sid p}, (σ'.ptys conn).get? sid = some p → p.ptr < σ.next := by
    intro conn sid p hs
    cases e.of_ptys hs
    case inl hs  => exact h.ptys hs
    case inr new => exact ho p (new.left ▸ rfl)
  cases e
  case read conn m =>
    refine ⟨h, List.forall_mem_append.mpr ⟨?_, by simp [Op.pty?]⟩⟩
    unfold handle
    split <;> simp [Op.pty?]
  case found hp => exact ⟨h, by simpa [Op.pty?] using h.ptys hp⟩
  case page hp => exact ⟨⟨ptys, h.pumps⟩, fun o hm => by simp [Op.quiet_of_isPage (hp o hm)]⟩
  case spawned hp =>
    have pumps p (hp : p ∈ σ.pumps) : p.ptr < σ.next + 1 := Nat.lt_succ_of_lt (h.pumps p hp)
    exact ⟨⟨fun hs => Nat.lt_succ_of_lt (ptys hs), pumps⟩,
      by simp [Op.pty?, hp, State.record, State.setProcess]⟩
  case inserted => exact ⟨⟨ptys, h.pumps⟩, by simpa [Op.pty?, State.setPtys] using ho⟩
  case goPump => exact ⟨⟨ptys, List.forall_mem_cons.mpr ⟨ho _ rfl, h.pumps⟩⟩, by simp⟩
  all_goals exact ⟨⟨ptys, h.pumps⟩, by simp_all [Op.pty?, State.record]⟩

theorem Known.start (h : Known σ) (e : start e2eKey σ r = some (σ', ops)) :
    Known σ' ∧ ∀ o ∈ ops, ∀ p, o.pty? = some p → p.ptr < σ'.next := by
  revert e
  fun_cases E2E.start e2eKey σ r <;> intro e <;> cases e
  case case1 | case4 =>
    refine ⟨⟨fun hs => Nat.lt_succ_of_lt (h.ptys hs), fun p hp => Nat.lt_succ_of_lt (h.pumps p hp)⟩, ?_⟩
    simp [Op.pty?]
  case case2 p hp =>
    exact ⟨⟨h.ptys, fun p' hp' => h.pumps p' (List.mem_of_mem_erase hp')⟩,
      by simpa [Op.pty?] using h.pumps p hp⟩
  all_goals exact ⟨⟨h.ptys, h.pumps⟩, by simp [Op.pty?]⟩

theorem known_reachable (h : (program hkdf e2eKey).system.Reachable c) :
    Known c.shared ∧ ∀ o, c.Pending o → ∀ p, o.pty? = some p → p.ptr < c.shared.next := by
  refine section_invariant (P := program hkdf e2eKey) (I := Known)
    (A := fun σ o => ∀ p, o.pty? = some p → p.ptr < σ.next) (R := fun σ σ' => σ.next ≤ σ'.next)
    ?_ ?_ ?_ ?_ h
  case refine_1 =>
    rintro σ ⟨cipher, rfl⟩
    exact ⟨by simp, by simp⟩
  case refine_2 =>
    intro σ r σ' ops h e
    have ⟨known, ops⟩ := h.start e
    exact ⟨known, start_next_le e, ops⟩
  case refine_3 =>
    intro c _ i op _ σ' ops _ _ _ h ho e
    have ⟨known, ops⟩ := h.exec ho (Exec.of e)
    exact ⟨known, (Exec.of e).next_le, ops⟩
  case refine_4 => exact fun _ _ _ _ hl ho p hp => Nat.lt_of_lt_of_le (ho p hp) hl

-- A process that was killed stays so, and so does one whose PTY was closed.
structure Process.Ages (pr pr' : Process) : Prop where
  killed : pr.killed → pr'.killed
  closed : pr.closed → pr'.closed

theorem setProcess_ages {p' : Pty κ} {pr : Process} (h : (σ.processes p').Ages pr) :
    (σ.processes p).Ages ((σ.setProcess p' pr).processes p) := by
  simp only [State.setProcess, Function.update_apply]
  split
  case isTrue same => exact same ▸ h
  case isFalse     => exact ⟨id, id⟩

theorem start_processes (e : start e2eKey σ r = some (σ', ops)) : σ'.processes = σ.processes := by
  revert e
  fun_cases start e2eKey σ r <;> intro e <;> cases e <;> rfl

-- The cleanup of a session kills and closes all that it finds.
theorem processes_foldl_killed (ps : List (Pty κ)) :
    let kill (σ : State κ) (p : Pty κ) :=
      σ.setProcess p { σ.processes p with killed := true, closed := true }
    (ps.foldl kill σ).processes p =
      if p ∈ ps then { σ.processes p with killed := true, closed := true } else σ.processes p := by
  intro kill
  induction ps generalizing σ
  case nil => simp
  case cons p' ps hi =>
    rw [List.foldl_cons, hi]
    by_cases same : p = p'
    case pos => subst same; simp [kill, State.setProcess]
    case neg => simp [kill, State.setProcess, same]

theorem exec_ages (hp : p.ptr < σ.next) (e : exec hkdf e2eKey σ op i = some (σ', ops)) :
    (σ.processes p).Ages (σ'.processes p) := by
  revert e
  fun_cases exec hkdf e2eKey σ op i <;> intro e
  -- spawn
  case case14 conn sid enc _ p' _ =>
    cases e
    have other : p ≠ p' := by
      rintro rfl
      exact Nat.lt_irrefl _ hp
    simpa [State.record, State.setProcess, Function.update_of_ne other] using ⟨id, id⟩
  -- write
  case case19 | case21 =>
    cases e
    split <;> exact ⟨id, id⟩
  -- setsize, close and kill
  case case24 => cases e; exact setProcess_ages ⟨id, id⟩
  case case26 | case27 => cases e; exact setProcess_ages ⟨fun _ => rfl, id⟩
  -- the deferred cleanup
  case case28 =>
    cases e
    refine Eq.subst (motive := (σ.processes p).Ages) (processes_foldl_killed _).symm ?_
    split
    case isTrue  => exact ⟨fun _ => rfl, fun _ => rfl⟩
    case isFalse => exact ⟨id, id⟩
  -- wait
  case case39 => cases e; exact setProcess_ages ⟨id, fun _ => rfl⟩
  -- the sections that seal
  case case35 | case61 | case65 =>
    obtain ⟨_, _, e⟩ := Option.bind_eq_some_iff.mp e
    cases e
    exact ⟨id, id⟩
  -- enableE2E and sendIn
  case case44 | case47 =>
    obtain ⟨rfl, _⟩ := Prod.mk.inj (Option.some.inj e)
    exact ⟨id, id⟩
  case case64 σ'' =>
    have same : σ''.processes = σ.processes := by
      simp only [σ'']
      split <;> rfl
    obtain ⟨rfl, _⟩ := Prod.mk.inj (Option.some.inj e)
    exact Eq.subst (motive := fun f => (σ.processes p).Ages (f p)) same.symm ⟨id, id⟩
  all_goals first | contradiction | (cases e; exact ⟨id, id⟩)

end E2E
