import Popfleet.Broker.Theorems.Handles

open Proto Store Program

namespace Broker

-- The session that a section is about to attach.
def Op.attaching : Op → Option String
  | .upgrade sid _ _ => some sid
  | .attach sid _ _  => some sid
  | _                => none

-- A session whose key was accepted is attached at most once.
structure Attaches (c : Config State Op) : Prop where
  accepted : ∀ {s}, s ∈ c.shared.attaches → s.sid ∈ c.shared.accepts.map (·.1)
  pending  : ∀ {o sid}, c.Pending o → o.attaching = some sid →
    sid ∈ c.shared.accepts.map (·.1) ∧ ∀ s ∈ c.shared.attaches, s.sid ≠ sid
  unique   : ∀ sid, c.Unique (·.attaching = some sid)

variable {sha256 : String → Digest} {σ σ' : State} {op : Op} {i : Input} {ops rest : List Op}
  {r : Req} {c : Config State Op} {t : Tid} {sid k : String} {p : PendKey} {ac : Option AgentConn}

-- Only an accepted key makes a section about to attach a session.
theorem Exec.attaching_cases (e : Exec sha256 σ op i σ' ops) :
    (σ'.accepts = σ.accepts ∧ σ'.attaches = σ.attaches ∧ ∀ o ∈ ops, o.attaching = none) ∨
    (∃ sid p ac, op = .upgrade sid p ac ∧ σ' = σ ∧ ops = [.attach sid p ac]) ∨
    (∃ sid p ac, op = .attach sid p ac ∧ σ'.accepts = σ.accepts ∧
      σ'.attaches = (σ.newSession sid p.mid).2 :: σ.attaches ∧ ∀ o ∈ ops, o.attaching = none) ∨
    (∃ sid k p ac, op = .consume sid k ∧ valid sha256 σ sid k = some p ∧
      σ'.accepts = (sid, k, σ.now) :: σ.accepts ∧ σ'.attaches = σ.attaches ∧
      ops = [.upgrade sid p ac]) := by
  cases e
  case upgraded sid p ac => exact .inr (.inl ⟨sid, p, ac, rfl, rfl, rfl⟩)
  case attached sid p ac =>
    exact .inr (.inr (.inl ⟨sid, p, ac, rfl, rfl, rfl, by simp [Op.attaching]⟩))
  case accepted sid k p hv => exact .inr (.inr (.inr ⟨sid, k, p, _, rfl, hv, rfl, rfl, rfl⟩))
  case agentRead =>
    refine .inl ⟨rfl, rfl, List.forall_mem_append.mpr ⟨?_, by simp [Op.attaching]⟩⟩
    exact forall_handleAgent rfl (fun _ => rfl) (fun _ => rfl)
  case termRead =>
    refine .inl ⟨rfl, rfl, List.forall_mem_append.mpr ⟨?_, by simp [Op.attaching]⟩⟩
    exact forall_handleTerm rfl rfl
  case sessEnded close | goneEnded close =>
    exact .inl ⟨rfl, rfl, List.forall_mem_cons.mpr ⟨rfl, forall_close close fun _ _ => rfl⟩⟩
  all_goals exact .inl ⟨rfl, rfl, by simp +contextual [Op.attaching, or_imp]⟩

theorem start_attaching (e : start σ r = some (σ', ops)) :
    σ'.accepts = σ.accepts ∧ σ'.attaches = σ.attaches ∧ ∀ o ∈ ops, o.attaching = none := by
  cases r <;> cases e
  case wsAgent => split <;> simp [Op.attaching]
  all_goals exact ⟨rfl, rfl, by simp [Op.attaching]⟩

-- Steps of other sections.
theorem Attaches.other (accepts : σ'.accepts = c.shared.accepts)
    (attaches : σ'.attaches = c.shared.attaches)
    (pending : ∀ {o}, (c.resume t σ' ops).Pending o → o.attaching.isSome → c.Pending o)
    (unique : ∀ sid, (c.resume t σ' ops).Unique (·.attaching = some sid)) (h : Attaches c) :
    Attaches (c.resume t σ' ops) := by
  constructor
  case accepted =>
    intro s hs
    rw [Config.resume_shared] at hs ⊢
    exact accepts ▸ h.accepted (attaches ▸ hs)
  case pending =>
    intro o sid ho ha
    rw [Config.resume_shared, accepts, attaches]
    exact h.pending (pending ho (by simp [ha])) ha
  case unique => exact unique

theorem Attaches.start (e : start c.shared r = some (σ', ops)) (h : Attaches c) :
    Attaches (c.resume t σ' ops) := by
  have ⟨accepts, attaches, idle⟩ := start_attaching e
  apply h.other accepts attaches
  case pending =>
    intro o ho ha
    exact ho.of_resume.resolve_left fun hm => by simp [idle o hm] at ha
  case unique =>
    intro sid
    have none : ops.countP (·.attaching = some sid) = 0 :=
      List.countP_eq_zero.mpr fun o hm => by simp [idle o hm]
    exact (h.unique sid).resume (none ▸ Nat.zero_le _)

theorem Attaches.upgrade (head : c.procs t = .upgrade sid p ac :: rest) (h : Attaches c) :
    Attaches (c.resume t c.shared ([.attach sid p ac] ++ rest)) := by
  have upgrade : c.Pending (.upgrade sid p ac) := ⟨t, head ▸ List.mem_cons_self⟩
  constructor
  case accepted => exact h.accepted
  case pending =>
    intro o sid' ho ha
    cases ho.of_step head
    case inl ho => cases List.mem_singleton.mp ho; cases ha; exact h.pending upgrade rfl
    case inr ho => exact h.pending ho ha
  case unique =>
    intro sid'
    apply (h.unique sid').resume
    rw [head]
    simp [List.countP_cons, Op.attaching]

theorem Attaches.attach {s : Session} (head : c.procs t = .attach sid p ac :: rest) (hs : s.sid = sid)
    (accepts : σ'.accepts = c.shared.accepts) (attaches : σ'.attaches = s :: c.shared.attaches)
    (none : ∀ o ∈ ops, o.attaching = none) (h : Attaches c) :
    Attaches (c.resume t σ' (ops ++ rest)) := by
  have attach : c.Pending (.attach sid p ac) := ⟨t, head ▸ List.mem_cons_self⟩
  have ⟨accepted, _⟩ := h.pending attach rfl
  constructor
  case accepted =>
    intro s' hs'
    rw [Config.resume_shared, attaches] at hs'
    rw [Config.resume_shared, accepts]
    cases hs'
    case head     => exact hs ▸ accepted
    case tail hs' => exact h.accepted hs'
  case pending =>
    intro o sid' ho ha
    rw [Config.resume_shared, accepts, attaches]
    have hp : c.Pending o := (ho.of_step head).resolve_left fun hm => by simp [none o hm] at ha
    have ⟨accepted', unattached⟩ := h.pending hp ha
    refine ⟨accepted', List.forall_mem_cons.mpr ⟨fun he => ?_, unattached⟩⟩
    -- The section that was run is the only one that attaches `sid`.
    have ⟨t', ho⟩ := ho
    exact (h.unique sid').none_of_head head (by simp [Op.attaching, ← hs, he])
      (fun o hm => by simp [none o hm]) ho (by simp [ha])
  case unique => exact fun sid' => (h.unique sid').step head fun o hm => by simp [none o hm]

theorem Attaches.accept (head : c.procs t = .consume sid k :: rest)
    (unaccepted : sid ∉ c.shared.accepts.map (·.1))
    (accepts : σ'.accepts = (sid, k, c.shared.now) :: c.shared.accepts)
    (attaches : σ'.attaches = c.shared.attaches) (h : Attaches c) :
    Attaches (c.resume t σ' ([.upgrade sid p ac] ++ rest)) := by
  constructor
  case accepted =>
    intro s hs
    rw [Config.resume_shared, attaches] at hs
    rw [Config.resume_shared, accepts]
    exact List.mem_cons_of_mem _ (h.accepted hs)
  case pending =>
    intro o sid' ho ha
    rw [Config.resume_shared, accepts, attaches]
    cases ho.of_step head
    case inl ho =>
      cases List.mem_singleton.mp ho
      cases ha
      exact ⟨List.mem_cons_self, fun s hs he => unaccepted (he ▸ h.accepted hs)⟩
    case inr ho =>
      have ⟨accepted, unattached⟩ := h.pending ho ha
      exact ⟨List.mem_cons_of_mem _ accepted, unattached⟩
  case unique =>
    intro sid'
    by_cases he : sid' = sid
    case neg => exact (h.unique sid').step head (by simp [Op.attaching, Ne.symm he])
    case pos =>
      have none : ∀ t, ∀ o ∈ c.procs t, ¬(decide (o.attaching = some sid') = true) := by
        intro t o ho ha
        exact unaccepted (he ▸ (h.pending ⟨t, ho⟩ (of_decide_eq_true ha)).left)
      apply Config.Unique.resume_of_none none
      have := List.countP_eq_zero.mpr fun o ho => none t o (head ▸ List.mem_cons_of_mem _ ho)
      simp [List.countP_cons, this]
      split <;> simp

theorem Attaches.step (e : Exec sha256 c.shared op i σ' ops) (head : c.procs t = op :: rest)
    (once : Once c.shared) (h : Attaches c) : Attaches (c.resume t σ' (ops ++ rest)) := by
  rcases e.attaching_cases with ⟨accepts, attaches, none⟩ | ⟨_, _, _, hop, hσ, hops⟩ |
    ⟨_, _, _, hop, accepts, attaches, none⟩ | ⟨sid, _, _, _, hop, hv, accepts, attaches, hops⟩
  case inl =>
    apply h.other accepts attaches
    case pending =>
      intro o ho ha
      exact (ho.of_step head).resolve_left fun hm => by simp [none o hm] at ha
    case unique => exact fun sid => (h.unique sid).step head fun o hm => by simp [none o hm]
  case inr.inl => subst hop hσ hops; exact h.upgrade head
  case inr.inr.inl => subst hop; exact h.attach head rfl accepts attaches none
  case inr.inr.inr =>
    subst hop hops
    refine h.accept head (fun ha => ?_) accepts attaches
    have ⟨⟨_, _, _⟩, accepted, hs⟩ := List.mem_map.mp ha
    cases hs
    exact absurd (valid_eq_some.mp hv).left (by simp [once.consumed accepted])

theorem attaches_reachable (h : (program sha256).system.Reachable c) (hf : c.shared.FreshSids) :
    Attaches c := by
  induction h
  case init c hi =>
    have ⟨⟨st, now, hs⟩, hp⟩ := hi
    refine ⟨by simp [hs, State.attaches], fun ⟨t, ho⟩ => ?_, fun sid => ⟨by simp [hp], by simp [hp]⟩⟩
    simp [hp] at ho
  case step c l c' hr _ e hi =>
    replace e := Step.of e
    cases e
    case start e => exact (hi (hf.of_suffix ⟨[], (start_mints e).symm⟩)).start e
    case step head e =>
      replace e := Exec.of e
      have fresh := hf.of_suffix e.mints_suffix
      exact (hi fresh).step e head ((keys_reachable hr).right fresh)

end Broker
