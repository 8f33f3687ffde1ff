import Popfleet.Panel.Theorems.Exec

open Proto V1e Worker

namespace Panel

-- The key is derived once: in `init` before the socket, or for a frame. What is unsealed or sealed is
-- under that key.
structure Keyed (σ : State) : Prop where
  init      : σ.init ≠ .returned → σ.ws = .null ∧ σ.aead = none
  null      : σ.ws = .null → σ.recv = [] ∧ σ.handling = none
  importing : ∀ b64 raw, σ.handling = some (.importing b64 raw) → σ.aead = none
  unsealing : ∀ key data, σ.handling = some (.unsealing key data) → σ.aead = some key
  sending   : ∀ key bytes, σ.sending = some (key, bytes) → σ.aead = some key
  probing   : σ.init = .probing → ∀ e2e, .probed e2e ∉ σ.log
  probed    : .probed true ∈ σ.log → σ.ws ≠ .null → ∃ key, σ.aead = some key

variable {H : Mac 32} {G : Gcm tagLen} {sid : String} {σ σ' : State} {l : Label}

namespace Keyed

-- A frame or its value is only there once there is a socket, and then `init` has returned.

theorem ws_ne_of_recv {m : Option Json} {recv : List (Option Json)} (k : Keyed σ)
    (hr : σ.recv = m :: recv) : σ.ws ≠ .null := by
  intro hw
  have ⟨h, _⟩ := k.null hw
  rw [hr] at h
  contradiction

theorem ws_ne_of_handling {h : Handling} (k : Keyed σ) (hh : σ.handling = some h) : σ.ws ≠ .null := by
  intro hw
  have ⟨_, h⟩ := k.null hw
  rw [hh] at h
  contradiction

-- Only the probe is looked for in the log.
theorem record {e : Event} (k : Keyed σ) (he : ∀ e2e, .probed e2e ≠ e) : Keyed (σ.record e) where
  init      := k.init
  null      := k.null
  importing := k.importing
  unsealing := k.unsealing
  sending   := k.sending
  probing h e2e hm := by
    rcases List.mem_cons.mp hm with hm | hm
    · exact he e2e hm
    · exact k.probing h e2e hm
  probed hm hw := by
    rcases List.mem_cons.mp hm with hm | hm
    · exact absurd hm (he true)
    · exact k.probed hm hw

theorem sending_eq_none (k : Keyed σ) (ha : σ.aead = none) : σ.sending = none := by
  cases hs : σ.sending
  case none => rfl
  case some => simp [k.sending _ _ hs] at ha

theorem returned (k : Keyed σ) (hw : σ.ws ≠ .null) : σ.init = .returned := by
  by_contra h
  exact hw (k.init h).left

end Keyed

theorem keyed_reachable (h : (system H G sid).Reachable σ) : Keyed σ := by
  refine h.invariant ?init ?step
  case init =>
    rintro _ ⟨stored, rfl⟩
    constructor <;> simp
  case step =>
    intro σ l σ' _ k _ e
    cases Exec.of e
    case unprobed h =>
      exact { k with init := fun hi => absurd rfl hi, probing := nofun }
    case asked h =>
      have ⟨null, _⟩ := k.init (by simp [h])
      exact { k with
        init    := fun _ => k.init (by simp [h])
        probing := nofun
        probed  := fun _ hw => absurd null hw }
    case declined h =>
      have ⟨null, _⟩ := k.init (by simp [h])
      exact { k with
        init    := fun hi => absurd rfl hi
        probing := nofun
        probed  := fun _ hw => absurd null hw }
    case plain h =>
      exact { k with
        init    := fun hi => absurd rfl hi
        null    := nofun
        probing := nofun
        probed  := fun hm _ => by
          rcases List.mem_cons.mp hm with hm | hm
          · cases hm
          · exact absurd hm (k.probing h true) }
    case keyed h =>
      have ⟨null, unkeyed⟩ := k.init (by simp [h])
      have ⟨_, idle⟩ := k.null null
      have unsent := k.sending_eq_none unkeyed
      exact {
        init      := fun hi => absurd rfl hi
        null      := nofun
        importing := fun _ _ hh => nomatch idle.symm.trans hh
        unsealing := fun _ _ hh => nomatch idle.symm.trans hh
        sending   := fun _ _ hs => nomatch unsent.symm.trans hs
        probing   := nofun
        probed    := fun _ _ => ⟨_, rfl⟩ }
    case opened h =>
      have hw : σ.ws ≠ .null := by simp [h]
      exact Keyed.record { k with
        init   := fun hi => absurd (k.returned hw) hi
        null   := nofun
        probed := fun hm _ => k.probed hm hw } nofun
    case received h =>
      exact Keyed.record { k with null := fun hw => by simp [h] at hw } nofun
    case passed hh hr _ =>
      exact { k with null := fun hw => absurd hw (k.ws_ne_of_recv hr) }
    case importing hh hr _ ha =>
      exact { k with
        null      := fun hw => absurd hw (k.ws_ne_of_recv hr)
        importing := fun _ _ _ => ha
        unsealing := nofun }
    case unsealing hh hr _ ha =>
      exact { k with
        null      := fun hw => absurd hw (k.ws_ne_of_recv hr)
        importing := nofun
        unsealing := fun _ _ hu => by cases hu; exact ha }
    case rendered hh hr _ _ _ =>
      exact { k with null := fun hw => absurd hw (k.ws_ne_of_recv hr) }
    case imported hh =>
      have hw := k.ws_ne_of_handling hh
      have unsent := k.sending_eq_none (k.importing _ _ hh)
      exact {
        init      := fun hi => absurd (k.returned hw) hi
        null      := fun h => absurd h hw
        importing := nofun
        unsealing := nofun
        sending   := fun _ _ hs => nomatch unsent.symm.trans hs
        probing   := k.probing
        probed    := fun _ _ => ⟨_, rfl⟩ }
    case unsealed hh _ =>
      exact { k with
        null      := fun hw => absurd hw (k.ws_ne_of_handling hh)
        importing := nofun
        unsealing := nofun }
    case tampered hh _ hw' =>
      have hw := k.ws_ne_of_handling hh
      exact { k with
        init      := fun hi => absurd (k.returned hw) hi
        null      := by rintro rfl; simp at hw'
        importing := nofun
        unsealing := nofun
        probed    := fun hm _ => k.probed hm hw }
    case typed | skipped => exact { k with }
    case sealing ha =>
      exact { k with sending := fun _ _ hs => by cases hs; exact ha }
    case clear => exact Keyed.record { k with } nofun
    case encrypted => exact Keyed.record { k with sending := nofun } nofun
    case unsent => exact { k with sending := nofun }
    case resized => exact k.record nofun
    case unresized => exact k
    case closed h =>
      exact { k with
        init   := fun hi => absurd (k.returned h) hi
        null   := nofun
        probed := fun hm _ => k.probed hm h }

end Panel
