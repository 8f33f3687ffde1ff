import Popfleet.E2E.Theorems.Authenticity

open Proto Program

namespace E2E

variable {κ : Type} [DecidableEq κ] {hkdf : Bytes → String → κ} {e2eKey : Bytes} {σ σ' : State κ}
  {op : Op κ} {i : Input} {ops rest : List (Op κ)} {r : Req κ} {m : Msg} {sid : String} {line : Bytes}
  {c c' : Config (State κ) (Op κ)} {l : Label (Req κ) Input} {t : Tid} {p : Pty κ}

-- An out frame carries output of a session, sealed under the key of that session.
def SealedOut (hkdf : Bytes → String → κ) (e2eKey : Bytes) (σ : State κ) (m : Msg) : Prop :=
  m.t = "out" → ∃ nonce b, .sealed .out e2eKey m.sid b ∈ σ.log ∧
    (sealPlain σ.aead (hkdf e2eKey m.sid) nonce b).map (·.2) = some m.data ∧
    openWire σ.aead (hkdf e2eKey m.sid) m.data = some b

-- What a section relies on: every PTY has the AEAD of its own sid, and the frames that are about to be
-- sent carry no output in the clear.
def Op.Guarded (hkdf : Bytes → String → κ) (e2eKey : Bytes) (σ : State κ) : Op κ → Prop
  | .hello _ m | .send _ m | .sendIn _ m => m.t ≠ "out"
  | .sendOut p m _ => p.Keyed hkdf e2eKey ∧ SealedOut hkdf e2eKey σ m
  | .spawn _ sid enc _ => enc = some (hkdf e2eKey sid)
  | .insert p | .goPump p | .pump p _ _ | .flush p _ _ | .wait p | .forget p => p.Keyed hkdf e2eKey
  | _ => True

structure Guarded (hkdf : Bytes → String → κ) (e2eKey : Bytes) (σ : State κ) : Prop where
  ptys  : ∀ {conn sid p}, (σ.ptys conn).get? sid = some p → p.Keyed hkdf e2eKey
  pumps : ∀ p ∈ σ.pumps, p.Keyed hkdf e2eKey
  shown : ∀ m, .shown m ∈ σ.log → SealedOut hkdf e2eKey σ m

-- The events stay, and what opens does so from then on.
structure Extends (σ σ' : State κ) : Prop where
  log    : σ.log <:+ σ'.log
  cipher : σ'.aead.cipher = σ.aead.cipher
  aead   : ∀ {k nonce ct b}, σ.aead.decrypt? k nonce ct = some b → σ'.aead.decrypt? k nonce ct = some b

theorem Extends.openWire {k : κ} {wire : String} {b : Bytes} (h : Extends σ σ')
    (ho : openWire σ.aead k wire = some b) : E2E.openWire σ'.aead k wire = some b := by
  have ⟨raw, hr, ho⟩ := Option.bind_eq_some_iff.mp ho
  have ⟨long, ho⟩ := Option.ite_none_left_eq_some.mp ho
  simp [E2E.openWire, hr, long, h.aead ho]

-- What the data of a frame of a PTY stands for, when so much was sealed.
def carried (T : Aead κ tagLen) (p : Pty κ) (data : String) : Option Bytes :=
  match p.enc with
  | none   => Base64.decode data
  | some k => openWire T k data

theorem Extends.carried {data : String} {b : Bytes} (h : Extends σ σ')
    (hb : carried σ.aead p data = some b) : E2E.carried σ'.aead p data = some b := by
  unfold E2E.carried at hb ⊢
  split
  case h_1 hk => simpa [hk] using hb
  case h_2 hk => exact h.openWire (by simpa [hk] using hb)

theorem SealedOut.mono (h : SealedOut hkdf e2eKey σ m) (he : Extends σ σ') :
    SealedOut hkdf e2eKey σ' m := by
  intro ht
  have ⟨nonce, b, hb, hs, ho⟩ := h ht
  exact ⟨nonce, b, he.log.mem hb, sealPlain_wire he.cipher ▸ hs, he.openWire ho⟩

theorem Op.Guarded.mono (h : op.Guarded hkdf e2eKey σ) (he : Extends σ σ') :
    op.Guarded hkdf e2eKey σ' := by
  cases op
  case sendOut => exact ⟨h.left, h.right.mono he⟩
  all_goals exact h

theorem Exec.extends (e : Exec hkdf e2eKey σ op i σ' ops) : Extends σ σ' := by
  cases e
  case sealedOut h | sealedIn h =>
    obtain ⟨_, rfl, _⟩ := sealPlain_eq_some h
    exact ⟨List.suffix_cons .., rfl, Aead.decrypt?_mono⟩
  case sealedCmd h =>
    obtain ⟨_, rfl, _⟩ := sealPlain_eq_some h
    exact ⟨(List.suffix_cons ..).trans (List.suffix_cons ..), rfl, Aead.decrypt?_mono⟩
  case helloSent | sent | spawned | opened | decoded | outSent | lastSent | inSent =>
    exact ⟨List.suffix_cons .., rfl, id⟩
  all_goals exact ⟨List.suffix_refl _, rfl, id⟩

-- Another frame is shown, or an event that shows none is recorded.
theorem Guarded.record {e : Event} (h : Guarded hkdf e2eKey σ)
    (he : ∀ m, e = .shown m → SealedOut hkdf e2eKey σ m) : Guarded hkdf e2eKey (σ.record e) := by
  refine ⟨h.ptys, h.pumps, fun m hm => ?_⟩
  have recorded : Extends σ (σ.record e) := ⟨List.suffix_cons .., rfl, id⟩
  cases hm
  case head    => exact (he m rfl).mono recorded
  case tail hm => exact (h.shown m hm).mono recorded

theorem SealedOut.of_ne (h : m.t ≠ "out") : SealedOut hkdf e2eKey σ m :=
  fun ht => absurd ht h

theorem Guarded.start (e : start e2eKey σ r = some (σ', ops)) (h : Guarded hkdf e2eKey σ) :
    Guarded hkdf e2eKey σ' ∧ Extends σ σ' ∧ ∀ o ∈ ops, o.Guarded hkdf e2eKey σ' := by
  revert e
  fun_cases E2E.start e2eKey σ r <;> intro e <;> cases e
  case case2 p hp =>
    have kept : ∀ p' ∈ σ.pumps.erase p, p'.Keyed hkdf e2eKey :=
      fun p' hp' => h.pumps p' (List.mem_of_mem_erase hp')
    exact ⟨⟨h.ptys, kept, h.shown⟩, ⟨List.suffix_refl _, rfl, id⟩,
      by simpa [Op.Guarded] using h.pumps p hp⟩
  case case9 =>
    refine ⟨h.record ?_, ⟨List.suffix_cons .., rfl, id⟩, by simp⟩
    rintro m ⟨⟩
    exact .of_ne (by simp)
  case case1 token name ver hello =>
    exact ⟨⟨h.ptys, h.pumps, h.shown⟩, ⟨List.suffix_refl _, rfl, id⟩, by simp [Op.Guarded, hello]⟩
  all_goals
    exact ⟨⟨h.ptys, h.pumps, h.shown⟩, ⟨List.suffix_refl _, rfl, id⟩, by simp [Op.Guarded]⟩

theorem Guarded.exec (e : Exec hkdf e2eKey σ op i σ' ops) (ho : op.Guarded hkdf e2eKey σ)
    (h : Guarded hkdf e2eKey σ) : Guarded hkdf e2eKey σ' := by
  have grown := e.extends
  have ptys : ∀ {conn sid p}, (σ'.ptys conn).get? sid = some p → p.Keyed hkdf e2eKey := by
    intro conn sid p hs
    cases e.of_ptys hs
    case inl hs => exact h.ptys hs
    case inr new =>
      obtain ⟨rfl, _⟩ := new
      exact ho
  cases e
  case helloSent | sent =>
    refine h.record ?_
    rintro m ⟨⟩
    exact .of_ne ho
  case outSent | lastSent =>
    refine h.record ?_
    rintro m ⟨⟩
    exact ho.right
  case inSent m _ =>
    have ⟨ptys, pumps, shown⟩ := h.record (e := .shown m) (by rintro m ⟨⟩; exact .of_ne ho)
    exact ⟨ptys, pumps, shown⟩
  case spawned conn sid enc cmd p hp =>
    have ⟨ptys, pumps, shown⟩ := h.record (e := .spawned sid cmd) (by rintro m ⟨⟩)
    exact ⟨ptys, pumps, shown⟩
  case opened | decoded => exact h.record (by rintro m ⟨⟩)
  case goPump p => exact ⟨h.ptys, List.forall_mem_cons.mpr ⟨ho, h.pumps⟩, h.shown⟩
  case sealedOut | sealedIn =>
    refine ⟨h.ptys, h.pumps, fun m hm => ?_⟩
    cases hm with
    | tail _ hm => exact (h.shown m hm).mono grown
  case sealedCmd =>
    refine ⟨h.ptys, h.pumps, fun m hm => ?_⟩
    cases hm
    case head => exact .of_ne (by simp)
    case tail hm =>
      cases hm with
      | tail _ hm => exact (h.shown m hm).mono grown
  all_goals exact ⟨ptys, h.pumps, h.shown⟩

theorem cmdline_enc {enc : Option κ} (len : e2eKey.length = keyLen)
    (h : cmdline hkdf e2eKey σ m = some (enc, line)) :
    enc = some (hkdf e2eKey m.sid) ∧
      (m.cmd = "" ∧ line = [] ∨ openWire σ.aead (hkdf e2eKey m.sid) m.cmd = some line) := by
  have enabled : e2eKey.length > 0 := len ▸ Nat.zero_lt_succ _
  simp only [cmdline, if_pos enabled, newSession, if_pos len, Option.bind_eq_bind,
    Option.bind_some] at h
  split at h
  case isTrue empty => cases h; exact ⟨rfl, .inl ⟨empty, rfl⟩⟩
  case isFalse =>
    obtain ⟨_, ho, h⟩ := Option.bind_eq_some_iff.mp h
    cases h
    exact ⟨rfl, .inr ho⟩

theorem Exec.ops_guarded (len : e2eKey.length = keyLen) (e : Exec hkdf e2eKey σ op i σ' ops)
    (ho : op.Guarded hkdf e2eKey σ) : ∀ o ∈ ops, o.Guarded hkdf e2eKey σ' := by
  have grown := e.extends
  cases e
  case read conn m =>
    refine List.forall_mem_append.mpr ⟨?_, by simp [Op.Guarded]⟩
    unfold handle
    split <;> simp [Op.Guarded]
  case authenticated hc => simpa [Op.Guarded] using (cmdline_enc len hc).left
  case spawned hp => simpa [Op.Guarded, Pty.Keyed, hp] using ho
  case encoded hk => simp [Op.Guarded, Pty.Keyed, hk] at ho
  case sealedOut p buf last nonce k aead data hk hs =>
    have same : k = hkdf e2eKey p.sid := Option.some.inj (hk.symm.trans ho)
    subst same
    simp only [List.forall_mem_cons, List.not_mem_nil, IsEmpty.forall_iff, implies_true, and_true]
    have sealed : (sealPlain aead (hkdf e2eKey p.sid) nonce buf).map (·.2) = some data :=
      (sealPlain_wire grown.cipher).trans (congrArg (Option.map (·.2)) hs)
    exact ⟨ho, fun _ => ⟨nonce, buf, List.mem_cons_self, sealed, openWire_sealPlain hs⟩⟩
  case found hp => simp [Op.Guarded]
  case page hp =>
    intro o hm
    have hp := hp o hm
    cases o <;> trivial
  all_goals simp_all [Op.Guarded]

theorem guarded_reachable (len : e2eKey.length = keyLen) (h : (program hkdf e2eKey).system.Reachable c) :
    Guarded hkdf e2eKey c.shared := by
  refine (section_invariant (P := program hkdf e2eKey) (I := Guarded hkdf e2eKey)
    (A := Op.Guarded hkdf e2eKey) (R := Extends) ?_ ?_ ?_ ?_ h).left
  case refine_1 =>
    rintro σ ⟨cipher, rfl⟩
    exact ⟨by simp, by simp, by simp⟩
  case refine_2 => exact fun σ r σ' ops h e => h.start e
  case refine_3 =>
    intro c _ i op _ σ' ops _ _ _ h ho e
    replace e := Exec.of e
    exact ⟨h.exec e ho, e.extends, e.ops_guarded len ho⟩
  case refine_4 => exact fun _ _ _ _ he ho => ho.mono he

-- A process of a sid was started for an open frame, which had no command or one that opened.
def Started (hkdf : Bytes → String → κ) (e2eKey : Bytes) (c : Config (State κ) (Op κ)) (sid : String)
    (line : Bytes) : Prop :=
  ∃ c₀ t i conn m rest c₁, (program hkdf e2eKey).system.Reachable c₀ ∧
    c₀.procs t = .openCmd conn m :: rest ∧ (program hkdf e2eKey).system.step c₀ (.step t i) = some c₁ ∧
    ((program hkdf e2eKey).system.after c₁).Reachable c ∧ m.sid = sid ∧
    (m.cmd = "" ∧ line = [] ∨ openWire c₀.shared.aead (hkdf e2eKey sid) m.cmd = some line)

theorem Started.step (h : Started hkdf e2eKey c sid line)
    (e : (program hkdf e2eKey).system.step c l = some c') : Started hkdf e2eKey c' sid line := by
  have ⟨c₀, t, i, conn, m, rest, c₁, hr, head, e₁, after, hs⟩ := h
  exact ⟨c₀, t, i, conn, m, rest, c₁, hr, head, e₁, .step after trivial e, hs⟩

-- Only an open frame calls for a process.
theorem Exec.spawn_mem {conn : Nat} {enc : Option κ} (e : Exec hkdf e2eKey σ op i σ' ops)
    (h : .spawn conn sid enc line ∈ ops) :
    ∃ conn m, op = .openCmd conn m ∧ m.sid = sid ∧ cmdline hkdf e2eKey σ m = some (enc, line) := by
  cases e
  case read conn m =>
    cases List.mem_append.mp h
    case inr h => simp at h
    case inl h =>
      unfold handle at h
      split at h <;> simp at h
  case authenticated conn m enc cmd hc =>
    have h := List.mem_singleton.mp h
    cases h
    exact ⟨conn, m, rfl, rfl, hc⟩
  case page hp => exact absurd (hp _ h) (by simp [Op.isPage])
  all_goals simp at h

theorem Exec.spawned_mem (e : Exec hkdf e2eKey σ op i σ' ops) (h : .spawned sid line ∈ σ'.log) :
    .spawned sid line ∈ σ.log ∨ ∃ conn enc, op = .spawn conn sid enc line := by
  cases e
  case spawned conn _ enc _ _ _ =>
    cases h
    case head   => exact .inr ⟨conn, enc, rfl⟩
    case tail h => exact .inl h
  case helloSent | sent | opened | decoded | outSent | lastSent | inSent | sealedOut | sealedIn =>
    cases h with
    | tail _ h => exact .inl h
  case sealedCmd =>
    cases h with
    | tail _ h =>
      cases h with
      | tail _ h => exact .inl h
  all_goals exact .inl h

theorem start_spawned (e : start e2eKey σ r = some (σ', ops)) :
    (∀ sid line, .spawned sid line ∈ σ'.log → .spawned sid line ∈ σ.log) ∧
      ∀ conn sid enc line, .spawn conn sid enc line ∉ ops := by
  revert e
  fun_cases E2E.start e2eKey σ r <;> intro e <;> cases e
  all_goals simp [State.record, State.setPage, State.banner]

theorem started_reachable (len : e2eKey.length = keyLen) (h : (program hkdf e2eKey).system.Reachable c) :
    (∀ conn sid enc line, c.Pending (.spawn conn sid enc line) → Started hkdf e2eKey c sid line) ∧
      ∀ sid line, .spawned sid line ∈ c.shared.log → Started hkdf e2eKey c sid line := by
  refine h.invariant (I := fun c =>
    (∀ conn sid enc line, c.Pending (.spawn conn sid enc line) → Started hkdf e2eKey c sid line) ∧
      ∀ sid line, .spawned sid line ∈ c.shared.log → Started hkdf e2eKey c sid line) ?_ ?_
  case refine_1 =>
    rintro c ⟨⟨cipher, hs⟩, hp⟩
    refine ⟨?_, by simp [hs]⟩
    rintro conn sid enc line ⟨t, ht⟩
    simp [hp t] at ht
  case refine_2 =>
    rintro c l c' hr ⟨pending, logged⟩ _ e
    have graph := Step.of e
    cases graph
    case start idle e' =>
      have ⟨log, ops⟩ := start_spawned e'
      refine ⟨fun conn sid enc line hp => ?_, fun sid line hs => (logged sid line (log _ _ hs)).step e⟩
      cases hp.of_resume
      case inl hm => exact absurd hm (ops _ _ _ _)
      case inr hp => exact (pending conn sid enc line hp).step e
    case step t i op rest σ' ops head e' =>
      replace e' := Exec.of e'
      refine ⟨fun conn sid enc line hp => ?_, fun sid line hs => ?_⟩
      case refine_1 =>
        cases hp.of_step head
        case inr hp => exact (pending conn sid enc line hp).step e
        case inl hm =>
          obtain ⟨conn, m, rfl, hm, hc⟩ := e'.spawn_mem hm
          subst hm
          exact ⟨c, t, i, conn, m, rest, _, hr, head, e, .init rfl, rfl, (cmdline_enc len hc).right⟩
      case refine_2 =>
        cases e'.spawned_mem hs
        case inl hs => exact (logged sid line hs).step e
        case inr hs =>
          obtain ⟨conn, enc, rfl⟩ := hs
          exact (pending conn sid enc line ⟨t, head ▸ List.mem_cons_self⟩).step e

-- An open frame whose command does not open is answered with err, and starts nothing.
theorem rejected {conn : Nat} (len : e2eKey.length = keyLen) (hc : m.cmd ≠ "")
    (ho : openWire c.shared.aead (hkdf e2eKey m.sid) m.cmd = none)
    (head : c.procs t = .openCmd conn m :: rest)
    (e : (program hkdf e2eKey).system.step c (.step t i) = some c') :
    let msg := "e2e decrypt failed (key mismatch or tampered cmd)"
    c'.shared = c.shared ∧ c'.procs t = .send conn { t := "err", sid := m.sid, msg } :: rest := by
  have enabled : e2eKey.length > 0 := len ▸ Nat.zero_lt_succ _
  have none : cmdline hkdf e2eKey c.shared m = none := by
    simp [cmdline, if_pos enabled, newSession, if_pos len, hc, ho]
  replace e := Step.of e
  cases e
  case step head' e =>
    cases head.symm.trans head'
    simp only [program, exec, none] at e
    cases e
    simp

end E2E
