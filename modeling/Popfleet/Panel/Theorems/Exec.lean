import Popfleet.Panel.Step
import Popfleet.V1e.Theorems.Interop

open Proto V1e Worker

namespace Panel

-- The value of an out frame, which is none if it has no text.
def outValue (m : Option Json) : Option (Option String) :=
  match m.bind fun m => m.field "t" with
  | none   => none
  | some t => if Json.is t "out" then some (Json.key (m.bind fun m => m.field "data").join) else none

-- The graph of `step`, for case analysis.
inductive Exec (H : Mac 32) (G : Gcm tagLen) (sid : String) (σ : State) : Label → State → Prop
  | unprobed {p answers} (h : σ.init = .probing) :
    Exec H G sid σ (.probe p answers) { σ with init := .returned }
  | asked {p answers b64 raw stored} (h : σ.init = .probing) :
    Exec H G sid σ (.probe p answers)
      { σ.record (.probed true) with stored, init := .importing b64 raw }
  | declined {p answers stored ended text} (h : σ.init = .probing) :
    Exec H G sid σ (.probe p answers)
      { σ.record (.probed true) with stored, init := .returned, ended, text }
  | plain {p answers} (h : σ.init = .probing) :
    Exec H G sid σ (.probe p answers) (σ.record (.probed false)).connect
  | keyed {answers b64 raw key} (h : σ.init = .importing b64 raw) :
    Exec H G sid σ (.derived answers) { σ with aead := some key, stored := some b64 }.connect
  | opened {c r} (h : σ.ws = .connecting) :
    Exec H G sid σ (.opened c r) ({ σ with ws := .opened }.record (.sent { t := "resize", c, r }))
  | received {m} (h : σ.ws = .opened) :
    Exec H G sid σ (.message m) ({ σ with recv := σ.recv ++ [m] }.record (.received m))
  | passed {m recv answers stored ended text} (hh : σ.handling = none) (hr : σ.recv = m :: recv)
    (h : outValue m = none ∨ σ.aead = none) :
    Exec H G sid σ (.handle answers) { σ with recv, stored, ended, text }
  | importing {m recv answers stored b64 raw} (hh : σ.handling = none) (hr : σ.recv = m :: recv)
    (h : outValue m = none) (ha : σ.aead = none) :
    Exec H G sid σ (.handle answers) { σ with recv, stored, handling := some (.importing b64 raw) }
  | unsealing {m recv answers key data} (hh : σ.handling = none) (hr : σ.recv = m :: recv)
    (h : outValue m = some data) (ha : σ.aead = some key) :
    Exec H G sid σ (.handle answers) { σ with recv, handling := some (.unsealing key data) }
  | rendered {m recv answers data b} (hh : σ.handling = none) (hr : σ.recv = m :: recv)
    (h : outValue m = some data) (ha : σ.aead = none) (hb : data.bind Base64.atob = some b) :
    Exec H G sid σ (.handle answers) { σ with recv, term := σ.term ++ [b] }
  | imported {answers b64 raw key stored} (hh : σ.handling = some (.importing b64 raw)) :
    Exec H G sid σ (.settle answers) { σ with aead := some key, stored, handling := none }
  | unsealed {answers key data b} (hh : σ.handling = some (.unsealing key data))
    (h : data.bind (V1e.Panel.unsealed G key) = some b) :
    Exec H G sid σ (.settle answers) { σ with term := σ.term ++ [b], handling := none }
  | tampered {answers key data stored ended text ws} (hh : σ.handling = some (.unsealing key data))
    (h : data.bind (V1e.Panel.unsealed G key) = none) (hw : ws = .closing ∨ ws = .closed) :
    Exec H G sid σ (.settle answers) { σ with stored, ended, text, handling := none, ws }
  | typed {typed bytes} : Exec H G sid σ (.onData bytes) { σ with typed }
  | skipped {typed} (h : σ.ws ≠ .opened) : Exec H G sid σ .send { σ with typed }
  | sealing {typed key bytes} (ha : σ.aead = some key) :
    Exec H G sid σ .send { σ with typed, sending := some (key, bytes) }
  | clear {typed data} (h : σ.ws = .opened) (ha : σ.aead = none) :
    Exec H G sid σ .send ({ σ with typed }.record (.sent { t := "in", data }))
  | encrypted {key bytes nonce} (h : σ.sending = some (key, bytes)) (hn : nonce.length = nonceLen) :
    Exec H G sid σ (.encrypted nonce) ({ σ with sending := none }.record
      (.sent { t := "in", data := V1e.Panel.sealPlain G key nonce bytes }))
  | unsent {nonce} : Exec H G sid σ (.encrypted nonce) { σ with sending := none }
  | resized {c r} : Exec H G sid σ (.resize c r) (σ.record (.sent { t := "resize", c, r }))
  | unresized {c r} : Exec H G sid σ (.resize c r) σ
  | closed {ended text} (h : σ.ws ≠ .null) :
    Exec H G sid σ .closed { σ with ws := .closed, ended, text }

variable {H : Mac 32} {G : Gcm tagLen} {sid : String} {σ σ' : State} {l : Label} {m : Option Json}
  {answers : List String} {b64 : String} {recv : List (Option Json)}

-- There is a banner then, whatever it says.
theorem banner_eq (msg : Option String) : ∃ text, σ.banner msg = { σ with ended := true, text } := by
  unfold State.banner
  split
  case isTrue ended => exact ⟨σ.text, by rw [← ended]⟩
  case isFalse      => exact ⟨_, rfl⟩

theorem rawKey_of_ask {stored stored' : Option String} {b64' : String} {raw : Bytes}
    (h : ask stored b64 answers = some (stored', some (b64', raw))) : rawKey b64' = some raw := by
  revert h
  fun_induction ask stored b64 answers <;> intro h <;> simp_all

theorem enableInit_cases (h : σ.enableInit b64 answers = some σ') :
    (∃ stored b64 raw, rawKey b64 = some raw ∧ σ' = { σ with stored, init := .importing b64 raw }) ∨
      ∃ stored text, σ' = { σ with stored, init := .returned, ended := true, text } := by
  have ⟨⟨stored, asked⟩, ha, h⟩ := Option.bind_eq_some_iff.mp h
  cases asked <;> cases h
  case some asked => exact .inl ⟨stored, asked.1, asked.2, rawKey_of_ask ha, rfl⟩
  case none =>
    have ⟨text, hb⟩ :=
      @banner_eq { σ with stored, init := .returned } "no fleet key: cannot decrypt this session"
    exact .inr ⟨stored, text, hb⟩

theorem enableFrame_cases (h : σ.enableFrame b64 answers = some σ') :
    (∃ stored b64 raw, rawKey b64 = some raw ∧
      σ' = { σ with stored, handling := some (.importing b64 raw) }) ∨
      ∃ stored text, σ' = { σ with stored, handling := none, ended := true, text } := by
  have ⟨⟨stored, asked⟩, ha, h⟩ := Option.bind_eq_some_iff.mp h
  cases asked <;> cases h
  case some asked => exact .inl ⟨stored, asked.1, asked.2, rawKey_of_ask ha, rfl⟩
  case none =>
    have ⟨text, hb⟩ :=
      @banner_eq { σ with stored, handling := none } "no fleet key: cannot decrypt this session"
    exact .inr ⟨stored, text, hb⟩

-- A tag is one string only.
theorem is_ne {t : Option Json} {s s' : String} (h : Json.is t s) (hne : s ≠ s') : ¬Json.is t s' := by
  unfold Json.is at h ⊢
  split at h
  case h_1 => simp_all
  case h_2 => contradiction

theorem outValue_of_ne {t : Option Json} {s : String} (ht : m.bind (fun m => m.field "t") = some t)
    (hs : Json.is t s) (hne : s ≠ "out") : outValue m = none := by
  simp [outValue, ht, is_ne hs hne]

theorem outValue_of {t : Option Json} (ht : m.bind (fun m => m.field "t") = some t)
    (hs : Json.is t "out") : outValue m = some (Json.key (m.bind fun m => m.field "data").join) := by
  simp [outValue, ht, hs]

theorem Exec.of_handle (hh : σ.handling = none) (hr : σ.recv = m :: recv)
    (h : { σ with recv }.handleFrame m answers = some σ') : Exec H G sid σ (.handle answers) σ' := by
  unfold State.handleFrame at h
  split at h
  case h_1 ht =>
    cases h
    exact .passed hh hr (.inl (by simp [outValue, ht]))
  case h_2 t ht =>
    split at h
    case isTrue he =>
      have ho := outValue_of_ne ht he (by decide)
      split at h
      case h_1 => cases h; exact .passed hh hr (.inl ho)
      case h_2 ha =>
        rcases enableFrame_cases h with ⟨stored, b64, raw, _, rfl⟩ | ⟨stored, text, rfl⟩
        · exact .importing hh hr ho ha
        · have same : σ = { σ with handling := none } := by rw [← hh]
          rw [same]
          exact .passed rfl hr (.inl ho)
    case isFalse =>
      split at h
      case isTrue ho =>
        have ho := outValue_of ht ho
        simp only at h
        split at h
        case h_1 ha => cases h; exact .unsealing hh hr ho ha
        case h_2 ha =>
          split at h <;> cases h
          case h_1 hb => exact .rendered hh hr ho ha hb
          case h_2    => exact .passed hh hr (.inr ha)
      case isFalse ho =>
        have ho : outValue m = none := by simp [outValue, ht, ho]
        have passed {msg} : Exec H G sid σ (.handle answers) ({ σ with recv }.banner msg) := by
          have ⟨text, hb⟩ := @banner_eq { σ with recv } msg
          exact hb ▸ .passed hh hr (.inl ho)
        split at h
        case isTrue =>
          simp only at h
          split at h <;> cases h
          case h_1 => exact passed
          case h_2 => exact .passed hh hr (.inl ho)
        case isFalse =>
          split at h <;> cases h
          case isTrue  => exact passed
          case isFalse => exact .passed hh hr (.inl ho)

theorem Exec.of_settle (h : σ.settle H G sid answers = some σ') :
    Exec H G sid σ (.settle answers) σ' := by
  unfold State.settle at h
  split at h
  case h_1 => contradiction
  case h_2 b64 raw hh =>
    have ⟨key, hk⟩ : ∃ key, V1e.Panel.deriveKey H raw sid = some key := ⟨_, V1e.Panel.deriveKey_eq⟩
    rw [hk] at h
    cases h
    exact .imported hh
  case h_3 key data hh =>
    split at h
    case h_1 hb =>
      cases h
      exact .unsealed hh hb
    case h_2 hb =>
      cases h
      have ⟨text, hm⟩ := @banner_eq { σ with stored := none, handling := none }
        "e2e decrypt failed (wrong fleet key or tampered frame) — session killed"
      rw [hm]
      exact .tampered hh hb (by split <;> simp)

theorem Exec.of (h : step H G sid σ l = some σ') : Exec H G sid σ l σ' := by
  cases l
  case handle answers =>
    simp only [step] at h
    split at h
    case h_1 hh hr => exact .of_handle hh hr h
    case h_2       => contradiction
  case settle => exact .of_settle h
  case probe p answers =>
    simp only [step] at h
    split at h
    case h_1 hi =>
      split at h
      case h_1 cfg =>
        split at h
        case h_1 => cases h; exact .unprobed hi
        case h_2 e2e =>
          split at h
          case isTrue ht =>
            rcases enableInit_cases h with ⟨stored, b64, raw, _, rfl⟩ | ⟨stored, text, rfl⟩
            · rw [ht]; exact .asked hi
            · rw [ht]; exact .declined hi
          case isFalse ht =>
            cases h
            rw [Bool.eq_false_iff.mpr ht]
            exact .plain hi
      case h_2 => cases h; exact .plain hi
    case h_2 => contradiction
  case derived answers =>
    simp only [step] at h
    split at h
    case h_1 b64 raw hi =>
      have ⟨key, hk⟩ : ∃ key, V1e.Panel.deriveKey H raw sid = some key := ⟨_, V1e.Panel.deriveKey_eq⟩
      rw [hk] at h
      cases h
      exact .keyed hi
    case h_2 => contradiction
  case opened =>
    have ⟨hw, h⟩ := Option.ite_none_right_eq_some.mp h
    cases h
    exact .opened hw
  case message =>
    have ⟨hw, h⟩ := Option.ite_none_right_eq_some.mp h
    cases h
    exact .received hw
  case onData => cases h; exact .typed
  case send =>
    simp only [step] at h
    split at h
    case h_1 bytes typed hs ht =>
      split at h
      case isTrue hw =>
        split at h <;> cases h
        case h_1 ha => exact .sealing ha
        case h_2 ha => exact .clear hw ha
      case isFalse hw => cases h; exact .skipped hw
    case h_2 => contradiction
  case encrypted nonce =>
    simp only [step] at h
    split at h
    case h_1 key bytes hs =>
      have ⟨hn, h⟩ := Option.ite_none_right_eq_some.mp h
      cases h
      split
      case isTrue  => exact .encrypted hs hn
      case isFalse => exact .unsent
    case h_2 => contradiction
  case resize =>
    cases h
    split
    case isTrue  => exact .resized
    case isFalse => exact .unresized
  case closed =>
    have ⟨hw, h⟩ := Option.ite_none_left_eq_some.mp h
    cases h
    have ⟨text, hb⟩ := @banner_eq { σ with ws := .closed } "disconnected from broker"
    rw [hb]
    exact .closed hw

end Panel
