import Popfleet.Broker.Step
import Popfleet.Contrib.Theorems.Handling
import Popfleet.V1e.Theorems.Interop

open Proto V1e

namespace Contrib

-- What `json.loads` makes of a frame of the Go broker, which leaves out the fields that are zero.
def Value.ofMsg (m : Msg) : Value :=
  let text k s := if s = "" then [] else [(k, str s)]
  let number k n := if n = 0 then [] else [(k, int n)]
  .dict <| [("t", str m.t)] ++ text "token" m.token ++ text "name" m.name ++ text "ver" m.ver ++
    (if m.e2e then [("e2e", bool true)] else []) ++ text "id" m.id ++ text "sid" m.sid ++
    text "data" m.data ++ text "cmd" m.cmd ++ (m.code.map fun n => ("code", int n)).toList ++
    number "c" m.c ++ number "r" m.r ++ text "msg" m.msg

-- A frame that a broker or a relay forwards for the browser of a session. The relay passes on any value
-- as data, c or r.
structure Forwarded (sid : String) (m : Value) : Prop where
  tag : ∃ tag ∈ ["open", "in", "resize", "close"], m.field? "t" = some (.str tag)
  sid : m.field? "sid" = some (.str sid)

-- The children that raised in `_exec`, and whom they killed.
def unwindings (log : List Event) : List (Pty × List Pty) :=
  log.filterMap fun | .unwound p killed => some (p, killed) | _ => none

-- The entries of all other sids stay as they are, `pump_in` goes on as before, and `handle` raises in no
-- child either.
structure Elsewhere (sid : String) (σ σ' : State) : Prop where
  ptys    : ∀ sid' ≠ sid, σ'.ptys.get? sid' = σ.ptys.get? sid'
  enc     : ∀ sid' ≠ sid, σ'.enc.get? sid' = σ.enc.get? sid'
  obuf    : ∀ sid' ≠ sid, σ'.obuf.get? sid' = σ.obuf.get? sid'
  oflush  : ∀ sid' ≠ sid, σ'.oflush.get? sid' = σ.oflush.get? sid'
  pumping : σ'.pumping = σ.pumping
  unwound : unwindings σ'.log = unwindings σ.log

-- `handle` returns, and what it changed belongs to the sid.
def Contained (H : Mac 32) (G : Gcm tagLen) (int : String → Option Int) (fleetKey : Option Bytes)
    (σ : State) (sid : String) (m : Value) (env : Env) : Prop :=
  ∃ σ', handle H G int fleetKey σ m env = some σ' ∧ Elsewhere sid σ σ'

-- The command line of the process that an open frame starts, where it starts one.
def started (H : Mac 32) (G : Gcm tagLen) (fleetKey : Option Bytes) (σ : State) (sid : String)
    (cmd : Value) : Option Bytes :=
  if sid = "" ∨ (σ.ptys.get? sid).isSome then none
  else
    match fleetKey with
    | none          => some (cmdline cmd)
    | some fleetKey => do
      let enc ← Contrib.E2E.init H fleetKey sid
      if cmd.truthy then openValue G enc cmd else some []

-- The size is two numbers of 16 bits.
def Fits (int : String → Option Int) (σ : State) (sid : String) (c r : Value) : Prop :=
  (σ.ptys.get? sid).isSome →
    ∀ v ∈ [c, r], ∃ n, v.toInt int = some n ∧ 0 ≤ n ∧ n < 2 ^ 16

variable {H : Mac 32} {G : Gcm tagLen} {int : String → Option Int} {fleetKey : Option Bytes}
  {σ σ' σ'' : State} {sid : String} {p : Pty} {m cmd data c r : Value} {f f' : Msg} {env : Env}
  {nonce : Nonce}

namespace Elsewhere

theorem refl (σ : State) : Elsewhere sid σ σ :=
  ⟨fun _ _ => rfl, fun _ _ => rfl, fun _ _ => rfl, fun _ _ => rfl, rfl, rfl⟩

theorem trans (h : Elsewhere sid σ σ') (h' : Elsewhere sid σ' σ'') : Elsewhere sid σ σ'' where
  ptys sid' hs   := (h'.ptys sid' hs).trans (h.ptys sid' hs)
  enc sid' hs    := (h'.enc sid' hs).trans (h.enc sid' hs)
  obuf sid' hs   := (h'.obuf sid' hs).trans (h.obuf sid' hs)
  oflush sid' hs := (h'.oflush sid' hs).trans (h.oflush sid' hs)
  pumping        := h'.pumping.trans h.pumping
  unwound        := h'.unwound.trans h.unwound

theorem send : Elsewhere sid σ (σ.send f) :=
  { refl σ with }

theorem deleteObuf : Elsewhere sid σ { σ with obuf := σ.obuf.delete sid } :=
  { refl σ with obuf := fun _ hs => by simp [hs] }

theorem flush : Elsewhere sid σ (σ.flush G sid nonce) := by
  have cancelled : Elsewhere sid σ (σ.cancelTimer sid) :=
    { refl σ with oflush := fun _ hs => by simp [State.cancelTimer, hs] }
  refine cancelled.trans ?_
  simp only [State.flush]
  split
  case h_1 => exact refl _
  case h_2 =>
    refine deleteObuf.trans ?_
    split
    case isTrue => exact refl _
    case isFalse =>
      split
      case h_1 => exact send
      case h_2 => exact refl _

theorem reap {notify : Bool} : Elsewhere sid σ (σ.reap G sid notify env) := by
  unfold State.reap
  split
  case h_1 => exact refl _
  case h_2 p _ =>
    have popped : Elsewhere sid σ { σ with ptys := σ.ptys.delete sid } :=
      { refl σ with ptys := fun _ hs => by simp [hs] }
    have flushed : Elsewhere sid σ
        ({ σ with ptys := σ.ptys.delete sid }.flush G sid (env.nonce sid)) := popped.trans flush
    refine flushed.trans ?_
    have ended {τ : State} {readers : GoMap Pty String} :
        Elsewhere sid τ ({ τ with enc := τ.enc.delete sid, readers }.record (.killed p (env.code p))) :=
      { refl τ with enc := fun _ hs => by simp [State.record, hs] }
    split
    case isFalse => exact ended
    case isTrue  => exact ended.trans send

theorem e2eKill {why : String} : Elsewhere sid σ (σ.e2eKill G sid why env) :=
  deleteObuf.trans (send.trans reap)

theorem write {b : Bytes} : Elsewhere sid σ (σ.write p b env) := by
  unfold State.write
  split
  case h_1 => exact { refl σ with }
  case h_2 => exact refl σ

theorem insert {line : Bytes} {enc : Option Contrib.E2E} : Elsewhere sid σ (σ.insert sid cmd line enc) := by
  refine { refl σ with ptys := fun _ hs => ?_, enc := fun _ hs => ?_ }
  case refine_1 => simp [State.insert, State.record, hs]
  case refine_2 => cases enc <;> simp [State.insert, State.record, hs]

end Elsewhere

def sampleEnv : Env :=
  { nonce := fun _ => ⟨.replicate 12 0, rfl⟩ }

-- A plaintext agent with the PTYs of the sessions a0 and b0.
def twoShells : List Label :=
  [.frame (.ofMsg { t := "open", sid := "a0" }) sampleEnv,
    .frame (.ofMsg { t := "open", sid := "b0" }) sampleEnv]

-- A session c0 whose command has a NUL kills the shells of a0 and b0.
theorem nul_command_kills_shells :
    let m : Msg := { t := "open", sid := "c0", cmd := "a\x00b" }
    let env : Env := { nonce := fun _ => ⟨.replicate 12 0, rfl⟩ }
    ∃ σ σ', (system sampleMac sampleGcm (fun _ => none) none).run {} twoShells = some σ ∧
      Forwarded "c0" (.ofMsg m) ∧ ¬Contained sampleMac sampleGcm (fun _ => none) none σ "c0" (.ofMsg m) env ∧
      (system sampleMac sampleGcm (fun _ => none) none).run σ [.frame (.ofMsg m) env] = some σ' ∧
      unwindings σ.log = [] ∧ unwindings σ'.log = [(⟨2, "c0"⟩, [⟨1, "b0"⟩, ⟨0, "a0"⟩])] := by
  intro m env
  let T := system sampleMac sampleGcm (fun _ => none) none
  have ran : (T.run {} (twoShells ++ [.frame (.ofMsg m) env])).isSome := by decide
  have ⟨σ', e'⟩ := Option.isSome_iff_exists.mp ran
  have ⟨σ, e, opens⟩ := Transition.run_append_eq_some.mp e'
  have before : unwindings σ.log = [] := Transition.eq_of_run (f := (unwindings ·.log)) e (by decide)
  have killed : unwindings σ'.log = [(⟨2, "c0"⟩, [⟨1, "b0"⟩, ⟨0, "a0"⟩])] :=
    Transition.eq_of_run (f := (unwindings ·.log)) e' (by decide)
  have handles : ((T.run {} twoShells).bind
      (handle sampleMac sampleGcm (fun _ => none) none · (.ofMsg m) env)).map (unwindings ·.log) =
        some [(⟨2, "c0"⟩, [⟨1, "b0"⟩, ⟨0, "a0"⟩])] := by decide
  refine ⟨σ, σ', e, ⟨⟨"open", by simp, rfl⟩, rfl⟩, ?_, opens, before, killed⟩
  rintro ⟨σ'', handled, elsewhere⟩
  rw [e, Option.bind_some, handled] at handles
  simp [elsewhere.unwound, before] at handles

end Contrib
