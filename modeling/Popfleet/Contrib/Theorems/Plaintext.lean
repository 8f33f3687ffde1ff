import Popfleet.Contrib.Theorems.Sealed
import Popfleet.E2E.Theorems.Printed

open Proto Program V1e

namespace Contrib

variable {κ : Type} [DecidableEq κ] {hkdf : Bytes → String → κ} {fleetKey : Bytes} {H : Mac 32}
  {G : Gcm tagLen} {int : String → Option Int}

-- A sealed value is longer than what it is the value of.
theorem sealed_ne {enc : Contrib.E2E} {nonce data : Bytes} {wire : String}
    (hn : nonce.length = nonceLen) (h : enc.sealPlain G nonce data = some wire) :
    wire ≠ Base64.encode data := by
  rintro rfl
  have ⟨⟨key⟩⟩ := enc
  rw [Contrib.E2E.sealPlain_eq hn] at h
  have same := congrArg Base64.decode (Option.some.inj h)
  rw [Base64.decode_encode, Base64.decode_encode] at same
  have length := congrArg List.length (Option.some.inj same)
  rw [List.length_append, G.length_encrypt, hn] at length
  simp only [nonceLen] at length
  omega

-- With a fleet key, both agents seal all output under the key of its sid, and start no process for an
-- open frame with a command that does not open under that key. What is sealed is a piece of what the PTY
-- of that sid has printed, and no frame has the base64 of it.
theorem no_plaintext (len : fleetKey.length = keyLen) :
    (∀ chunks c, (E2E.program hkdf fleetKey).system.Observed (fun c l => (E2E.chunk c l).toList) chunks c →
      (∀ m, .shown m ∈ c.shared.log → m.t = "out" → ∃ p nonce b, p.sid = m.sid ∧
        (E2E.sealPlain c.shared.aead (hkdf fleetKey m.sid) nonce b).map (·.2) = some m.data ∧
        E2E.openWire c.shared.aead (hkdf fleetKey m.sid) m.data = some b ∧
        m.data ≠ Base64.encode b ∧ b <:+: E2E.printed p chunks) ∧
      (∀ sid line, .spawned sid line ∈ c.shared.log → E2E.Started hkdf fleetKey c sid line) ∧
      ∀ t i conn m rest c', c.procs t = .openCmd conn m :: rest → m.cmd ≠ "" →
        E2E.openWire c.shared.aead (hkdf fleetKey m.sid) m.cmd = none →
        (E2E.program hkdf fleetKey).system.step c (.step t i) = some c' →
        let msg := "e2e decrypt failed (key mismatch or tampered cmd)"
        c'.shared = c.shared ∧ c'.procs t = .send conn { t := "err", sid := m.sid, msg } :: rest) ∧
    ∀ σ, (system H G int (some fleetKey)).Reachable σ →
      (∀ f, f ∈ σ.outbox ∨ .sent f ∈ σ.log → f.t = "out" → ∃ p enc nonce data, p.sid = f.sid ∧
        Contrib.E2E.init H fleetKey f.sid = some enc ∧ nonce.length = nonceLen ∧
        enc.sealPlain G nonce data = some f.data ∧ f.data ≠ Base64.encode data ∧
        data <:+: reads p σ.log) ∧
      ∀ p cmd line, .spawned p cmd line ∈ σ.log → (cmd.truthy = false ∧ line = []) ∨
        ∃ enc, Contrib.E2E.init H fleetKey p.sid = some enc ∧ openValue G enc cmd = some line := by
  constructor
  case left =>
    intro chunks c h
    have reachable := h.reachable
    refine ⟨fun m hm ht => ?_, (E2E.started_reachable len reachable).right, ?_⟩
    case refine_1 =>
      have ⟨nonce, b, logged, sealed, opens⟩ := (E2E.guarded_reachable len reachable).shown m hm ht
      have ⟨p, hs, hb⟩ := (E2E.prints_observed h).sealed _ _ _ logged
      exact ⟨p, nonce, b, hs, sealed, opens, E2E.openWire_ne_encode opens, hb⟩
    case refine_2 => exact fun t i conn m rest c' head hc ho e => E2E.rejected len hc ho head e
  case right =>
    intro σ h
    have keyed := keyed_reachable h
    refine ⟨fun f hf ht => ?_, keyed.spawned⟩
    have queued : .queued f ∈ σ.log := hf.elim (keyed.outbox f) (keyed.sent f)
    have ⟨p, enc, nonce, data, hp, he, hn, hs, hd⟩ := keyed.queued f queued ht
    exact ⟨p, enc, nonce, data, hp, he, hn, hs, sealed_ne hn hs, hd⟩

-- The frames that the socket took.
def State.sents (σ : State) : List Msg :=
  σ.log.filterMap fun | .sent f => some f | _ => none

def goPty : E2E.Pty (Bytes × String) :=
  ⟨1, 0, "a0", some (sampleKey, "a0")⟩

-- The Go agent prints "$" in session a0.
def goRun : List (Program.Label (E2E.Req (Bytes × String)) E2E.Input) :=
  [.start 2 (.session "e1" "" "dev"), .step 2 .done, .step 2 (.frame { t := "hello_ok" }),
    .step 2 (.frame { t := "open", sid := "a0" }), .step 2 .done, .step 2 .done, .step 2 .done,
    .step 2 .done, .step 2 .done,
    .start 3 (.pump goPty), .step 3 (.chunk [36]), .step 3 .deadline,
    .step 3 (.drawn (.replicate 12 1)), .step 3 .done]

-- The Python agent prints "ls" there.
def pythonRun (env : Env) : List Label :=
  [.frame (.dict [("t", .str "open"), ("sid", .str "a0")]) env,
    .readable ⟨0, "a0"⟩ (some [108, 115]) env, .timer 1 env, .pumpOut]

theorem no_plaintext_sample :
    let out : Msg := { t := "out", sid := "a0", data := "AQEBAQEBAQEBAQEBJAAAAAAAAAAAAAAAAAAAAAA=" }
    let out' : Msg := { t := "out", sid := "a0", data := "AAAAAAAAAAAAAAAA6Al9e0SkO+GCgM4gEj+2mltf" }
    let env : Env := { nonce := fun _ => ⟨.replicate 12 0, rfl⟩ }
    (∃ c, (E2E.program Prod.mk sampleKey).system.run E2E.initial goRun = some c ∧
      ∃ p nonce b, p.sid = "a0" ∧
        (E2E.sealPlain c.shared.aead (sampleKey, "a0") nonce b).map (·.2) = some out.data ∧
        out.data ≠ Base64.encode b ∧ b <:+: E2E.printed p [(goPty, [36])]) ∧
    ∃ σ, (system sampleMac sampleGcm (fun _ => none) (some sampleKey)).run {} (pythonRun env) = some σ ∧
      ∃ p enc nonce data, p.sid = "a0" ∧ Contrib.E2E.init sampleMac sampleKey "a0" = some enc ∧
        nonce.length = nonceLen ∧ enc.sealPlain sampleGcm nonce data = some out'.data ∧
        data <:+: reads p σ.log := by
  intro out out' env
  have len : sampleKey.length = keyLen := by decide
  have ⟨go, python⟩ :=
    @no_plaintext (Bytes × String) _ Prod.mk sampleKey sampleMac sampleGcm (fun _ => none) len
  constructor
  case left =>
    cases e : (E2E.program Prod.mk sampleKey).system.run E2E.initial goRun
    case none => contradiction
    case some c =>
      have observed := (Transition.Observed.init
        (f := fun c l => (E2E.chunk c l).toList) E2E.initial_init).run e
      have shown : .shown out ∈ c.shared.log := by
        have last : c.shared.log.head? = some (.shown out) :=
          Transition.eq_of_run (f := (·.shared.log.head?)) e (by decide)
        exact List.mem_of_mem_head? last
      have chunks : [] ++ ((E2E.program Prod.mk sampleKey).system.observe
          (fun c l => (E2E.chunk c l).toList) E2E.initial goRun).flatten = [(goPty, [36])] := by decide
      have ⟨p, nonce, b, hs, sealed, _, other, hb⟩ := (go _ c observed).left out shown rfl
      exact ⟨c, rfl, p, nonce, b, hs, sealed, other, chunks ▸ hb⟩
  case right =>
    cases e : (system sampleMac sampleGcm (fun _ => none) (some sampleKey)).run {} (pythonRun env)
    case none => contradiction
    case some σ =>
      have reachable := Transition.Reachable.run (.init rfl) e
      have sents : σ.sents = [out'] := Transition.eq_of_run (f := State.sents) e (by decide)
      have sent : .sent out' ∈ σ.log := by
        have hm : out' ∈ σ.sents := by simp [sents]
        have ⟨ev, hl, he⟩ := List.mem_filterMap.mp hm
        split at he <;> cases he
        exact hl
      have ⟨p, enc, nonce, data, hp, he, hn, hs, _, hd⟩ := (python σ reachable).left out' (.inr sent) rfl
      exact ⟨σ, rfl, p, enc, nonce, data, hp, he, hn, hs, hd⟩

end Contrib
