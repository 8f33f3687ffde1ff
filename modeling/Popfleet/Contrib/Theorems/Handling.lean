import Popfleet.Contrib.Step

open Proto V1e

namespace Contrib

-- `m.get(k)`.
def Value.field? (m : Value) (k : String) : Option Value :=
  match m with
  | dict fields => fields.lookup k
  | _           => Option.none

-- All that `handle` can do, where it returns.
inductive Does (H : Mac 32) (G : Gcm tagLen) (fleetKey : Option Bytes) (σ : State) (m : Value)
    (env : Env) : State → Prop
  | nothing : Does H G fleetKey σ m env σ
  | enrolled : Does H G fleetKey σ m env { σ with enrolled := true }
  | spawned {sid cmd line enc} : σ.ptys.get? sid = none →
    enc = fleetKey.bind (Contrib.E2E.init H · sid) →
    (∀ aead, enc = some aead → (cmd.truthy = false ∧ line = []) ∨ openValue G aead cmd = some line) →
    Does H G fleetKey σ m env (σ.spawn sid cmd line enc env)
  | refused {sid msg} : Does H G fleetKey σ m env (σ.send { t := "err", sid, msg })
  | typed {p b} : m.field? "t" = some (.str "in") → Does H G fleetKey σ m env (σ.write p b env)
  | tampered {sid why} : Does H G fleetKey σ m env (σ.e2eKill G sid why env)
  | resized {p cols rows} : Does H G fleetKey σ m env (σ.record (.resized p cols rows))
  | closed {sid} : Does H G fleetKey σ m env (σ.reap G sid true env)

variable {H : Mac 32} {G : Gcm tagLen} {int : String → Option Int} {fleetKey : Option Bytes}
  {σ σ' : State} {m : Value} {env : Env}

-- What comes of a start.
theorem State.spawn_cases (σ : State) (sid : String) (cmd : Value) (line : Bytes)
    (enc : Option Contrib.E2E) (env : Env) :
    (env.fork = false ∧
      σ.spawn sid cmd line enc env = σ.send { t := "exit", sid, code := some 127 }) ∨
    (env.fork = true ∧
      (σ.spawn sid cmd line enc env = σ.insert sid cmd line enc ∨
        ∃ p killed, σ.spawn sid cmd line enc env =
          (σ.insert sid cmd line enc).record (.unwound p killed))) := by
  unfold State.spawn
  cases env.fork
  case false => exact .inl ⟨rfl, rfl⟩
  case true =>
    refine .inr ⟨rfl, ?_⟩
    rw [if_pos rfl]
    split
    case isTrue  => exact .inr ⟨_, _, rfl⟩
    case isFalse => exact .inl rfl

namespace Does

theorem openPty {v cmd : Value} (e : openPty H G fleetKey σ v cmd env = some σ') :
    Does H G fleetKey σ m env σ' := by
  unfold Contrib.openPty at e
  split at e
  case h_2 => split at e <;> cases e; exact .nothing
  case h_1 sid =>
    split at e
    case isTrue => cases e; exact .nothing
    case isFalse unused =>
      have hn : σ.ptys.get? sid = none := by simpa using (not_or.mp unused).right
      split at e
      case h_1 => cases e; exact .spawned hn rfl (by simp)
      case h_2 fleetKey =>
        simp only [Option.bind_eq_bind, Option.bind_eq_some_iff] at e
        have ⟨aead, he, e⟩ := e
        split at e
        case isFalse falsy =>
          cases e
          exact .spawned hn he.symm fun _ _ => .inl ⟨by simpa using falsy, rfl⟩
        case isTrue =>
          split at e <;> cases e
          case h_2 => exact .refused
          case h_1 opened =>
            refine .spawned hn he.symm fun aead' he' => .inr ?_
            cases he'
            exact opened

theorem handleIn {v data : Value} (ht : m.field? "t" = some (.str "in"))
    (e : handleIn G σ v data env = some σ') : Does H G fleetKey σ m env σ' := by
  unfold Contrib.handleIn at e
  split at e
  case h_2 => split at e <;> cases e; exact .nothing
  case h_1 =>
    split at e
    case h_1 => cases e; exact .nothing
    case h_2 =>
      split at e
      case h_1 =>
        split at e <;> cases e
        case h_1 => exact .typed ht
        case h_2 => exact .tampered
      case h_2 =>
        have ⟨_, _, e⟩ := Option.bind_eq_some_iff.mp e
        cases e
        exact .typed ht

theorem handleResize {v c r : Value} (e : handleResize int σ v c r = some σ') :
    Does H G fleetKey σ m env σ' := by
  unfold Contrib.handleResize at e
  split at e
  case h_2 => split at e <;> cases e; exact .nothing
  case h_1 =>
    split at e
    case h_1 => cases e; exact .nothing
    case h_2 =>
      simp only [Option.bind_eq_bind, Option.bind_eq_some_iff, Option.ite_none_right_eq_some] at e
      obtain ⟨_, _, _, _, _, e⟩ := e
      cases e
      exact .resized

theorem handleClose {v : Value} (e : handleClose G σ v env = some σ') :
    Does H G fleetKey σ m env σ' := by
  unfold Contrib.handleClose at e
  split at e
  case h_1 => cases e; exact .closed
  case h_2 => split at e <;> cases e; exact .nothing

theorem of_handle (e : handle H G int fleetKey σ m env = some σ') : Does H G fleetKey σ m env σ' := by
  unfold handle at e
  split at e
  case h_2 => contradiction
  case h_1 fields =>
    simp only at e
    split at e
    case h_1 => cases e; exact .enrolled
    case h_2 => exact .openPty e
    case h_3 ht =>
      refine .handleIn ?_ e
      cases hf : fields.lookup "t"
      case none   => simp [hf] at ht
      case some v => simpa [Value.field?, hf] using ht
    case h_4 => exact .handleResize e
    case h_5 => exact .handleClose e
    case h_6 => cases e; exact .nothing

end Does

end Contrib
