import Popfleet.E2E.Theorems.Exec
import Popfleet.Proto.ReadJSON

open Proto Program

namespace E2E

variable {κ : Type} [DecidableEq κ] {hkdf : Bytes → String → κ} {e2eKey : Bytes} {σ σ' : State κ}
  {op : Op κ} {i : Input} {ops rest : List (Op κ)} {m : Msg} {conn : Nat} {sid : String} {p : Pty κ}
  {c c' c₁ c₂ : Config (State κ) (Op κ)} {t : Tid}

-- The keystrokes that the PTYs of a session got, the latest first.
def State.writes (σ : State κ) (sid : String) : List Bytes :=
  σ.log.filterMap fun
    | .wrote sid' b => if sid' = sid then some b else none
    | _             => none

-- The PTYs of the other sessions are as they were.
structure State.Spares (σ σ' : State κ) (sid : String) : Prop where
  ptys      : ∀ conn, ∀ sid' ≠ sid, (σ'.ptys conn).get? sid' = (σ.ptys conn).get? sid'
  processes : ∀ p, p.sid ≠ sid → σ'.processes p = σ.processes p
  writes    : ∀ sid' ≠ sid, σ'.writes sid' = σ.writes sid'

-- The sections that the agent handles an in or resize frame of a session with.
def Op.About (sid : String) : Op κ → Prop
  | .lookup _ m | .setsize _ m | .send _ m => m.sid = sid
  | .write p _ | .kill p                   => p.sid = sid
  | _                                      => False

namespace State.Spares

omit [DecidableEq κ] in
theorem refl : Spares σ σ sid :=
  ⟨fun _ _ _ => rfl, fun _ _ => rfl, fun _ _ => rfl⟩

theorem setProcess {pr : Process} (h : p.sid = sid) : Spares σ (σ.setProcess p pr) sid where
  ptys _ _ _       := rfl
  processes p' hne := Function.update_of_ne (by rintro rfl; exact hne h) ..
  writes _ _       := rfl

omit [DecidableEq κ] in
theorem wrote {b : Bytes} : Spares σ (σ.record (.wrote sid b)) sid where
  ptys _ _ _      := rfl
  processes _ _   := rfl
  writes sid' hne := by simp [State.writes, State.record, hne.symm]

omit [DecidableEq κ] in
theorem shown : Spares σ (σ.record (.shown m)) sid where
  ptys _ _ _    := rfl
  processes _ _ := rfl
  writes _ _    := rfl

end State.Spares

-- A PTY is found by its own sid.
def State.Named (σ : State κ) : Prop :=
  ∀ conn sid p, (σ.ptys conn).get? sid = some p → p.sid = sid

theorem State.Named.exec (h : σ.Named) (e : Exec hkdf e2eKey σ op i σ' ops) : σ'.Named := by
  intro conn sid p hs
  cases e.of_ptys hs
  case inl hs  => exact h conn sid p hs
  case inr new => exact new.right.right.symm

theorem start_ptys {r : Req κ} (e : start e2eKey σ r = some (σ', ops)) : σ'.ptys = σ.ptys := by
  revert e
  fun_cases start e2eKey σ r <;> intro e <;> cases e <;> rfl

theorem named_reachable (h : (program hkdf e2eKey).system.Reachable c) : c.shared.Named := by
  refine h.invariant (I := fun c => c.shared.Named) ?_ ?_
  case refine_1 =>
    rintro c ⟨⟨cipher, hi⟩, _⟩
    rw [hi]
    exact fun _ _ _ hs => by simp at hs
  case refine_2 =>
    intro c l c' _ hi _ e
    replace e := Step.of e
    cases e
    case start e => exact fun conn sid p hs => hi conn sid p (start_ptys e ▸ hs)
    case step e  => exact hi.exec (Exec.of e)

omit [DecidableEq κ] in
theorem about_handle (ht : m.t = "in" ∨ m.t = "resize") :
    ∀ o ∈ handle (κ := κ) conn m, o.About m.sid := by
  intro o ho
  rcases ht with ht | ht
  all_goals
    simp only [handle, ht, List.mem_singleton] at ho
    exact ho ▸ rfl

-- A section about a session spares the others, and the sections it calls for are about it as well.
theorem exec_about (h : σ.Named) (ho : op.About sid)
    (e : exec hkdf e2eKey σ op i = some (σ', ops)) :
    σ.Spares σ' sid ∧ ∀ o ∈ ops, o.About sid := by
  revert e
  fun_cases exec hkdf e2eKey σ op i <;> intro e
  -- write, where the sid of the PTY is the session
  case case19 | case21 =>
    cases e
    cases ho
    split
    case isTrue  => exact ⟨.refl, by simp⟩
    case isFalse => exact ⟨.wrote, by simp⟩
  case case20 => cases e; exact ⟨.refl, by simpa [Op.About] using ho⟩
  -- lookup and setsize
  case case18 hp =>
    cases e
    exact ⟨.refl, List.forall_mem_singleton.mpr ((h _ _ _ hp).trans ho)⟩
  case case24 hp _ => cases e; exact ⟨.setProcess ((h _ _ _ hp).trans ho), by simp⟩
  -- kill
  case case27 => cases e; exact ⟨.setProcess ho, by simp⟩
  -- send
  case case8 => cases e; exact ⟨.shown, by simp⟩
  all_goals first | exact ho.elim | (cases e; exact ⟨.refl, by simp⟩)

-- What `ReadJSON` returns for a frame of the relay.
def received (f : Worker.Json) : Input :=
  (readJSON f).elim .failed .frame

-- A step that is not the thread's next read.
def Meanwhile (t : Tid) (c : Config (State κ) (Op κ)) (l : Label (Req κ) Input) : Prop :=
  l.tid = t → ∀ conn rest, c.procs t ≠ .readJSON conn :: rest

-- With what it reads, a session does not end and spares the PTYs of all sids but one, whatever else
-- happens until it reads again.
def Isolates (hkdf : Bytes → String → κ) (e2eKey : Bytes) (c : Config (State κ) (Op κ)) (t : Tid)
    (sid : String) (i : Input) : Prop :=
  ∀ c₁, (program hkdf e2eKey).system.step c (.step t i) = some c₁ →
    ∀ c₂, ((program hkdf e2eKey).system.after c₁).ReachableUnder (Meanwhile t) c₂ →
      c.procs t <:+ c₂.procs t ∧
      ∀ i' c₃, Meanwhile t c₂ (.step t i') →
        (program hkdf e2eKey).system.step c₂ (.step t i') = some c₃ →
        c₂.shared.Spares c₃.shared sid

-- What is left of the handling of a frame.
def Handling (sid : String) (reads ops : List (Op κ)) : Prop :=
  ∃ about, ops = about ++ reads ∧ ∀ o ∈ about, o.About sid

theorem Handling.step (hs : c.shared.Named)
    (h : Handling sid (.readJSON conn :: rest) (c.procs t)) (hm : Meanwhile t c (.step t i))
    (e : (program hkdf e2eKey).system.step c (.step t i) = some c') :
    c.shared.Spares c'.shared sid ∧ Handling sid (.readJSON conn :: rest) (c'.procs t) := by
  have ⟨about, procs, ha⟩ := h
  replace e := Step.of e
  cases e
  case step op rest' σ ops head e =>
    cases about
    case nil => exact absurd procs (hm rfl conn rest)
    case cons op' about =>
      cases head.symm.trans procs
      have ⟨hop, ha⟩ := List.forall_mem_cons.mp ha
      have ⟨spares, ho⟩ := exec_about hs hop e
      refine ⟨spares, ops ++ about, ?_, List.forall_mem_append.mpr ⟨ho, ha⟩⟩
      simp

theorem handling_read (head : c.procs t = .readJSON conn :: rest) (ht : m.t = "in" ∨ m.t = "resize")
    (e : (program hkdf e2eKey).system.step c (.step t (.frame m)) = some c₁) :
    Handling m.sid (c.procs t) (c₁.procs t) := by
  replace e := Step.of e
  cases e
  case step head' e =>
    cases head.symm.trans head'
    cases e
    exact ⟨handle conn m, by simp [head], about_handle ht⟩

theorem handling_meanwhile (h : (program hkdf e2eKey).system.Reachable c₁)
    (h₁ : Handling sid (.readJSON conn :: rest) (c₁.procs t))
    (h₂ : ((program hkdf e2eKey).system.after c₁).ReachableUnder (Meanwhile t) c₂) :
    Handling sid (.readJSON conn :: rest) (c₂.procs t) := by
  refine h₂.invariant (I := fun c => Handling sid (.readJSON conn :: rest) (c.procs t)) ?_ ?_
  case refine_1 => exact fun c hi => hi ▸ h₁
  case refine_2 =>
    intro c l c' hr hi hm e
    replace e : (program hkdf e2eKey).system.step c l = some c' := e
    by_cases ht : l.tid = t
    case neg =>
      have same : c'.procs t = c.procs t := by
        replace e := Step.of e
        cases e <;> exact Config.resume_procs.trans (if_neg (Ne.symm ht))
      exact same ▸ hi
    case pos =>
      cases l
      case start t' r =>
        have ⟨about, procs, _⟩ := hi
        replace e := Step.of e
        cases e
        case start idle _ =>
          have idle : c.procs t = [] := ht ▸ idle
          simp [idle] at procs
      case step t' i =>
        obtain rfl : t' = t := ht
        exact (hi.step (named_reachable (h.after hr)) hm e).right

-- A session isolates the frames of a terminal that it can decode, and only these.
theorem isolates_iff {f : Worker.Json} (h : (program hkdf e2eKey).system.Reachable c)
    (head : c.procs t = .readJSON conn :: rest)
    (hf : ∀ m, readJSON f = some m → (m.t = "in" ∨ m.t = "resize") ∧ m.sid = sid) :
    Isolates hkdf e2eKey c t sid (received f) ↔ (readJSON f).isSome := by
  cases read : readJSON f
  case none =>
    let c₁ := c.resume t c.shared (.killAll conn :: rest)
    have e : (program hkdf e2eKey).system.step c (.step t .failed) = some c₁ := by
      simp [system, Program.step, head, program, exec, c₁]
    simp only [received, read, Option.elim_none, Option.isSome_none, Bool.false_eq_true, iff_false]
    intro isolates
    obtain ⟨kept, _⟩ := isolates c₁ e c₁ (.init rfl)
    rw [head, Config.resume_procs, if_pos rfl] at kept
    cases kept.eq_of_length rfl
  case some m =>
    obtain ⟨ht, hm⟩ := hf m read
    simp only [received, read, Option.elim_some, Option.isSome_some, iff_true]
    intro c₁ e c₂ h₂
    have reading : Handling sid (.readJSON conn :: rest) (c₁.procs t) :=
      hm ▸ head ▸ handling_read head ht e
    have reachable : (program hkdf e2eKey).system.Reachable c₁ := .step h trivial e
    have handling := handling_meanwhile reachable reading h₂
    refine ⟨?_, fun i' c₃ hn e₃ => ?_⟩
    case refine_1 =>
      obtain ⟨about, procs, _⟩ := handling
      exact head ▸ procs ▸ List.suffix_append ..
    case refine_2 => exact (handling.step (named_reachable (reachable.after h₂)) hn e₃).left

end E2E
