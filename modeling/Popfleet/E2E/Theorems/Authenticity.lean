import Popfleet.E2E.Theorems.Exec

open Proto Program

namespace E2E

-- What an ideal key derivation promises: another fleet key or another sid gives another key.
def IdealKdf {κ : Type} (hkdf : Bytes → String → κ) : Prop :=
  ∀ fleetKey fleetKey' sid sid', hkdf fleetKey sid = hkdf fleetKey' sid' →
    fleetKey = fleetKey' ∧ sid = sid'

def Sealed (e2eKey : Bytes) (log : List Event) (sid : String) (b : Bytes) : Prop :=
  ∃ use, .sealed use e2eKey sid b ∈ log

-- What the agent writes and runs, after the events in `log`.
def Event.Authentic (e2eKey : Bytes) (log : List Event) : Event → Prop
  | .wrote sid b     => Sealed e2eKey log sid b
  | .spawned sid cmd => cmd ≠ [] → Sealed e2eKey log sid cmd
  | _                => True

def Authentic (e2eKey : Bytes) (log : List Event) : Prop :=
  ∀ after before e, log = after ++ e :: before → e.Authentic e2eKey before

variable {e2eKey : Bytes} {sid wire : String} {b : Bytes} {e : Event} {log : List Event}

theorem Sealed.mono {log' : List Event} (hl : log <:+ log') (h : Sealed e2eKey log sid b) :
    Sealed e2eKey log' sid b :=
  h.imp fun _ h => hl.mem h

theorem Authentic.cons (he : e.Authentic e2eKey log) (h : Authentic e2eKey log) :
    Authentic e2eKey (e :: log) :=
  Transition.Throughout.cons he h

variable {κ : Type} {hkdf : Bytes → String → κ} {σ σ' : State κ} {op : Op κ} {i : Input}
  {ops : List (Op κ)} {r : Req κ} {m : Msg}

-- A PTY with the AEAD of its own sid.
def Pty.Keyed (hkdf : Bytes → String → κ) (e2eKey : Bytes) (p : Pty κ) : Prop :=
  p.enc = some (hkdf e2eKey p.sid)

-- What a section relies on.
def Op.Secure (hkdf : Bytes → String → κ) (e2eKey : Bytes) (σ : State κ) : Op κ → Prop
  | .spawn _ sid enc cmd =>
    enc = some (hkdf e2eKey sid) ∧ (cmd ≠ [] → Sealed e2eKey σ.log sid cmd)
  | .insert p | .goPump p | .write p _ | .kill p | .pump p _ _ | .flush p _ _ | .sendOut p _ _
  | .wait p | .forget p => p.Keyed hkdf e2eKey
  | _ => True

theorem Op.Secure.mono (hl : σ.log <:+ σ'.log) (h : op.Secure hkdf e2eKey σ) :
    op.Secure hkdf e2eKey σ' := by
  cases op
  case spawn => exact ⟨h.left, fun hc => (h.right hc).mono hl⟩
  all_goals exact h

variable [DecidableEq κ]

-- What was sealed is on record, and every PTY has the AEAD of its own sid.
structure Secure (hkdf : Bytes → String → κ) (e2eKey : Bytes) (σ : State κ) : Prop where
  aead  : ∀ {k nonce ct b}, σ.aead.decrypt? k nonce ct = some b →
    ∃ use fleetKey sid, k = hkdf fleetKey sid ∧ .sealed use fleetKey sid b ∈ σ.log
  ptys  : ∀ {conn sid p}, (σ.ptys conn).get? sid = some p → p.Keyed hkdf e2eKey
  pumps : ∀ p ∈ σ.pumps, p.Keyed hkdf e2eKey
  log   : Authentic e2eKey σ.log

-- An ideal AEAD opens only what was sealed, and under a key derived for one sid only what was sealed
-- for that sid.
theorem Secure.opened (ideal : IdealKdf hkdf) (h : Secure hkdf e2eKey σ)
    (ho : openWire σ.aead (hkdf e2eKey sid) wire = some b) : Sealed e2eKey σ.log sid b := by
  have ⟨_, _, _, _, ho⟩ := openWire_eq_some ho
  have ⟨use, _, _, hk, hs⟩ := h.aead ho
  have ⟨hf, hs'⟩ := ideal _ _ _ _ hk
  exact ⟨use, hf ▸ hs' ▸ hs⟩

theorem Secure.cmdline {enc : Option κ} (ideal : IdealKdf hkdf) (len : e2eKey.length = keyLen)
    (h : Secure hkdf e2eKey σ) (hc : cmdline hkdf e2eKey σ m = some (enc, b)) :
    enc = some (hkdf e2eKey m.sid) ∧ (b ≠ [] → Sealed e2eKey σ.log m.sid b) := by
  have enabled : e2eKey.length > 0 := len ▸ Nat.zero_lt_succ _
  simp only [E2E.cmdline, if_pos enabled, newSession, if_pos len, Option.bind_eq_bind,
    Option.bind_some] at hc
  split at hc
  case isTrue  => cases hc; exact ⟨rfl, absurd rfl⟩
  case isFalse =>
    have ⟨_, ho, hc⟩ := Option.bind_eq_some_iff.mp hc
    cases hc
    exact ⟨rfl, fun _ => h.opened ideal ho⟩

-- Recording one more event.
theorem Secure.record (he : e.Authentic e2eKey σ.log) (h : Secure hkdf e2eKey σ) :
    Secure hkdf e2eKey (σ.record e) := by
  refine ⟨fun hd => ?_, h.ptys, h.pumps, h.log.cons he⟩
  have ⟨use, fleetKey, sid, hk, hs⟩ := h.aead hd
  exact ⟨use, fleetKey, sid, hk, List.mem_cons_of_mem _ hs⟩

theorem Secure.sealed {use : Use} {fleetKey nonce : Bytes} {aead : Aead κ tagLen}
    (hs : sealPlain σ.aead (hkdf fleetKey sid) nonce b = some (aead, wire))
    (h : Secure hkdf e2eKey σ) :
    Secure hkdf e2eKey ({ σ with aead }.record (.sealed use fleetKey sid b)) := by
  refine ⟨fun hd => ?_, h.ptys, h.pumps, h.log.cons trivial⟩
  obtain ⟨_, rfl, _⟩ := sealPlain_eq_some hs
  cases Aead.of_decrypt?_encrypt hd
  case inl h =>
    obtain ⟨hk, hb⟩ := h
    exact ⟨use, fleetKey, sid, hk, hb ▸ List.mem_cons_self⟩
  case inr hd =>
    have ⟨use', fleetKey', sid', hk, hs⟩ := h.aead hd
    exact ⟨use', fleetKey', sid', hk, List.mem_cons_of_mem _ hs⟩

theorem Secure.start (e : start e2eKey σ r = some (σ', ops)) (h : Secure hkdf e2eKey σ) :
    Secure hkdf e2eKey σ' ∧ σ.log <:+ σ'.log ∧ ∀ o ∈ ops, o.Secure hkdf e2eKey σ' := by
  revert e
  fun_cases E2E.start e2eKey σ r <;> intro e <;> cases e
  case case2 p hp =>
    have kept : ∀ p' ∈ σ.pumps.erase p, p'.Keyed hkdf e2eKey :=
      fun p' hp' => h.pumps p' (List.mem_of_mem_erase hp')
    exact ⟨⟨h.aead, h.ptys, kept, h.log⟩, List.suffix_refl _, by simpa [Op.Secure] using h.pumps p hp⟩
  case case9 => exact ⟨h.record trivial, List.suffix_cons .., by simp⟩
  all_goals exact ⟨⟨h.aead, h.ptys, h.pumps, h.log⟩, List.suffix_refl _, by simp [Op.Secure]⟩

theorem Secure.exec (ideal : IdealKdf hkdf) (e : Exec hkdf e2eKey σ op i σ' ops)
    (ho : op.Secure hkdf e2eKey σ) (h : Secure hkdf e2eKey σ) :
    Secure hkdf e2eKey σ' ∧ σ.log <:+ σ'.log := by
  have ptys : ∀ {conn sid p}, (σ'.ptys conn).get? sid = some p → p.Keyed hkdf e2eKey := by
    intro conn sid p hs
    cases e.of_ptys hs
    case inl hs => exact h.ptys hs
    case inr new =>
      obtain ⟨rfl, _⟩ := new
      exact ho
  cases e
  case helloSent | sent | outSent | lastSent => exact ⟨h.record trivial, List.suffix_cons ..⟩
  case inSent m _ =>
    have ⟨aead, ptys, pumps, log⟩ := h.record (e := .shown m) trivial
    exact ⟨⟨aead, ptys, pumps, log⟩, List.suffix_cons ..⟩
  case spawned conn sid enc cmd p hp =>
    have ⟨aead, ptys, pumps, log⟩ := h.record (e := .spawned sid cmd) ho.right
    exact ⟨⟨aead, ptys, pumps, log⟩, List.suffix_cons ..⟩
  case goPump p =>
    exact ⟨⟨h.aead, h.ptys, List.forall_mem_cons.mpr ⟨ho, h.pumps⟩, h.log⟩, List.suffix_refl _⟩
  case opened p data k b hk hd =>
    cases hk.symm.trans ho
    exact ⟨h.record (h.opened ideal hd), List.suffix_cons ..⟩
  case decoded hk _ => cases hk.symm.trans ho
  case sealedOut p buf last nonce k aead data hk hs =>
    cases hk.symm.trans ho
    exact ⟨h.sealed hs, List.suffix_cons ..⟩
  case sealedIn hs => exact ⟨h.sealed hs, List.suffix_cons ..⟩
  case sealedCmd hs =>
    exact ⟨(h.sealed hs).record trivial, (List.suffix_cons ..).trans (List.suffix_cons ..)⟩
  all_goals exact ⟨⟨h.aead, ptys, h.pumps, h.log⟩, List.suffix_refl _⟩

theorem Exec.ops_secure (ideal : IdealKdf hkdf) (len : e2eKey.length = keyLen)
    (e : Exec hkdf e2eKey σ op i σ' ops) (ho : op.Secure hkdf e2eKey σ) (h : Secure hkdf e2eKey σ) :
    ∀ o ∈ ops, o.Secure hkdf e2eKey σ' := by
  cases e
  case read conn m =>
    refine List.forall_mem_append.mpr ⟨?_, by simp [Op.Secure]⟩
    unfold handle
    split <;> simp [Op.Secure]
  case authenticated hc => simpa [Op.Secure] using h.cmdline ideal len hc
  case spawned hp => simpa [Op.Secure, Pty.Keyed, hp] using ho.left
  case found hp => simpa [Op.Secure] using h.ptys hp
  case page hp =>
    intro o hm
    have hp := hp o hm
    cases o <;> trivial
  all_goals simp_all [Op.Secure]

theorem secure_reachable (ideal : IdealKdf hkdf) (len : e2eKey.length = keyLen)
    {c : Config (State κ) (Op κ)} (h : (program hkdf e2eKey).system.Reachable c) :
    Secure hkdf e2eKey c.shared := by
  refine (section_invariant (P := program hkdf e2eKey) (I := Secure hkdf e2eKey)
    (A := Op.Secure hkdf e2eKey) (R := fun σ σ' => σ.log <:+ σ'.log) ?_ ?_ ?_ ?_ h).left
  case refine_1 =>
    rintro σ ⟨cipher, rfl⟩
    exact ⟨by simp [Aead.decrypt?], by simp, by simp, by simp [Authentic]⟩
  case refine_2 => exact fun σ r σ' ops h e => h.start e
  case refine_3 =>
    intro c _ i op _ σ' ops _ _ _ h ho e
    replace e := Exec.of e
    obtain ⟨secure, grown⟩ := h.exec ideal e ho
    exact ⟨secure, grown, e.ops_secure ideal len ho h⟩
  case refine_4 => exact fun _ _ _ _ hl ho => ho.mono hl

-- Whatever frames the relay makes of what it sees, or of anything else: all that the agent writes to a
-- PTY or runs as a command was sealed before, under the fleet key and for the same sid.
theorem authentic (ideal : IdealKdf hkdf) (len : e2eKey.length = keyLen)
    {c : Config (State κ) (Op κ)} (h : (program hkdf e2eKey).system.Reachable c) :
    (∀ after before sid b, c.shared.log = after ++ .wrote sid b :: before →
      ∃ use, .sealed use e2eKey sid b ∈ before) ∧
    (∀ after before sid cmd, c.shared.log = after ++ .spawned sid cmd :: before → cmd ≠ [] →
      ∃ use, .sealed use e2eKey sid cmd ∈ before) := by
  have log := (secure_reachable ideal len h).log
  exact ⟨fun _ _ _ _ hl => log _ _ _ hl, fun _ _ _ _ hl => log _ _ _ hl⟩

-- A relay that only makes up frames from the values that it has seen.
def replayed (c : Config (State κ) (Op κ)) : Label (Req κ) Input → Bool
  | .step _ (.frame m) => [m.data, m.cmd].all fun v =>
    v = "" ∨ c.shared.log.any fun | .shown m => v = m.data ∨ v = m.cmd | _ => false
  | _ => true

def sampleKey : Bytes :=
  .replicate 32 7

def initial : Config (State (Bytes × String)) (Op (Bytes × String)) where
  shared := {}
  procs  := fun _ => []

theorem initial_init {e2eKey : Bytes} : (program Prod.mk e2eKey).system.Init initial :=
  ⟨⟨_, rfl⟩, fun _ => rfl⟩

-- The page of a session, on which "ls" is typed.
def sampleTyped : List (Label (Req (Bytes × String)) Input) :=
  let pg : Page := ⟨0, "a0"⟩
  [.start 0 (.page "a0"), .step 0 (.config true),
    .step 0 (.key "BwcHBwcHBwcHBwcHBwcHBwcHBwcHBwcHBwcHBwcHBwc="), .step 0 .done,
    .start 1 (.onData pg [108, 115]), .start 1 (.sendNext pg),
    .step 1 (.drawn (.replicate 12 0)), .step 1 .done]

-- The agent runs the session and gets the keystrokes.
theorem authentic_sample :
    let ls : List (Label (Req (Bytes × String)) Input) := sampleTyped ++ [
      .start 2 (.session "e1" "" "dev"), .step 2 .done, .step 2 (.frame { t := "hello_ok" }),
      .step 2 (.frame { t := "open", sid := "a0" }), .step 2 .done, .step 2 .done, .step 2 .done,
      .step 2 .done, .step 2 .done,
      .step 2 (.frame { t := "in", sid := "a0", data := "AAAAAAAAAAAAAAAAbHMAAAAAAAAAAAAAAAAAAAAA" }),
      .step 2 .done, .step 2 .done]
    ∃ c, (program Prod.mk sampleKey).system.run initial ls = some c ∧
      ∃ before, c.shared.log = .wrote "a0" [108, 115] :: before ∧
        ∃ use, .sealed use sampleKey "a0" [108, 115] ∈ before := by
  intro ls
  cases e : (program Prod.mk sampleKey).system.run initial ls
  case none => contradiction
  case some c =>
    have ideal : IdealKdf (Prod.mk : Bytes → String → Bytes × String) :=
      fun _ _ _ _ h => Prod.mk.inj h
    have len : sampleKey.length = keyLen := by decide
    have reachable := Transition.Reachable.run (.init initial_init) e
    have last : c.shared.log = .wrote "a0" [108, 115] :: c.shared.log.tail :=
      List.eq_cons_of_mem_head? (Transition.eq_of_run (f := (·.shared.log.head?)) e (by decide))
    have ⟨written, _⟩ := authentic ideal len reachable
    exact ⟨c, rfl, _, last, written [] _ _ _ last⟩

-- The events that the relay does not see.
def notable : Event → Bool
  | .shown _ => false
  | _        => true

-- The relay opens the session with the keystrokes as the command, and sends the output of the agent
-- back to it as keystrokes. Nobody sealed a command, and nobody typed the output.
theorem output_replayed_as_input :
    let ls : List (Label (Req (Bytes × String)) Input) := sampleTyped ++ [
      .start 2 (.session "e1" "" "dev"), .step 2 .done, .step 2 (.frame { t := "hello_ok" }),
      .step 2 (.frame { t := "open", sid := "a0", cmd := "AAAAAAAAAAAAAAAAbHMAAAAAAAAAAAAAAAAAAAAA" }),
      .step 2 .done, .step 2 .done, .step 2 .done, .step 2 .done, .step 2 .done,
      .start 3 (.pump ⟨2, 1, "a0", some (sampleKey, "a0")⟩), .step 3 (.chunk [36]), .step 3 .deadline,
      .step 3 (.drawn (.replicate 12 1)), .step 3 .done,
      .step 2 (.frame { t := "in", sid := "a0", data := "AQEBAQEBAQEBAQEBJAAAAAAAAAAAAAAAAAAAAAA=" }),
      .step 2 .done, .step 2 .done]
    ∃ c, (program Prod.mk sampleKey).system.runWhile replayed initial ls = some c ∧
      .wrote "a0" [36] ∈ c.shared.log ∧ .spawned "a0" [108, 115] ∈ c.shared.log ∧
      (∀ fleetKey, .sealed .keys fleetKey "a0" [36] ∉ c.shared.log) ∧
      (∀ fleetKey, .sealed .cmd fleetKey "a0" [108, 115] ∉ c.shared.log) := by
  intro ls
  cases e : (program Prod.mk sampleKey).system.runWhile replayed initial ls
  case none => contradiction
  case some c =>
    have log : c.shared.log.filter notable = [.wrote "a0" [36], .sealed .out sampleKey "a0" [36],
        .spawned "a0" [108, 115], .sealed .keys sampleKey "a0" [108, 115]] :=
      Transition.eq_of_run (f := (·.shared.log.filter notable)) e (by decide)
    have mem {e : Event} (he : notable e) :
        e ∈ c.shared.log ↔ e ∈ [Event.wrote "a0" [36], .sealed .out sampleKey "a0" [36],
          .spawned "a0" [108, 115], .sealed .keys sampleKey "a0" [108, 115]] := by
      rw [← log, List.mem_filter]
      exact ⟨fun h => ⟨h, he⟩, And.left⟩
    refine ⟨c, rfl, (mem rfl).mpr (by simp), (mem rfl).mpr (by simp), ?_, ?_⟩
    all_goals exact fun fleetKey h => by simpa using (mem rfl).mp h

end E2E
