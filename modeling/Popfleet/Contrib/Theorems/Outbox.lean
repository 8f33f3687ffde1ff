import Popfleet.Contrib.Theorems.Plaintext

open Proto V1e

namespace Contrib

-- The frames that were put on the outbox, the oldest first.
def State.queues (σ : State) : List Msg :=
  (σ.log.filterMap fun | .queued f => some f | _ => none).reverse

-- The socket takes the frames in the order in which they were put on the outbox.
def InOrder (σ : State) : Prop :=
  σ.sents.reverse ++ σ.outbox = σ.queues

-- Some frames are put behind the others on the outbox, and the socket takes none.
def Emits (σ σ' : State) : Prop :=
  ∃ fs, σ'.outbox = σ.outbox ++ fs ∧ σ'.queues = σ.queues ++ fs ∧ σ'.sents = σ.sents

variable {H : Mac 32} {G : Gcm tagLen} {int : String → Option Int} {fleetKey : Option Bytes}
  {σ σ' σ'' : State} {sid : String} {p : Pty} {e : Event} {f : Msg} {env : Env} {nonce : Nonce}

theorem InOrder.emits (h : InOrder σ) (he : Emits σ σ') : InOrder σ' := by
  have ⟨fs, outbox, queues, sents⟩ := he
  rw [InOrder, outbox, queues, sents, ← List.append_assoc, h]

namespace Emits

theorem refl : Emits σ σ :=
  ⟨[], by simp⟩

theorem trans (h : Emits σ σ') (h' : Emits σ' σ'') : Emits σ σ'' := by
  obtain ⟨fs, outbox, queues, sents⟩ := h
  obtain ⟨fs', outbox', queues', sents'⟩ := h'
  exact ⟨fs ++ fs', by simp [outbox', outbox], by simp [queues', queues], sents'.trans sents⟩

theorem send : Emits σ (σ.send f) :=
  ⟨[f], rfl, by simp [State.send, State.record, State.queues], rfl⟩

-- The events that are about no frame.
theorem record (hq : ∀ f, e ≠ .queued f) (hs : ∀ f, e ≠ .sent f) : Emits σ (σ.record e) := by
  exact ⟨[], by simp [State.record], by simp [State.queues, State.record],
    by simp [State.sents, State.record]⟩

theorem flush : Emits σ (σ.flush G sid nonce) := by
  simp only [State.flush]
  split
  case h_1 => exact refl
  case h_2 =>
    split
    case isTrue => exact refl
    case isFalse =>
      split
      case h_1 => exact send
      case h_2 => exact refl

theorem reap {notify : Bool} : Emits σ (σ.reap G sid notify env) := by
  unfold State.reap
  split
  case h_1 => exact refl
  case h_2 p _ =>
    have popped : Emits σ { σ with ptys := σ.ptys.delete sid } := refl
    have flushed : Emits σ ({ σ with ptys := σ.ptys.delete sid }.flush G sid (env.nonce sid)) :=
      popped.trans flush
    have killed {τ : State} {enc readers} :
        Emits τ ({ τ with enc, readers }.record (.killed p (env.code p))) :=
      record (by simp) (by simp)
    split
    case isFalse => exact flushed.trans killed
    case isTrue  => exact flushed.trans (killed.trans send)

theorem e2eKill {why : String} : Emits σ (σ.e2eKill G sid why env) :=
  have discarded : Emits σ { σ with obuf := σ.obuf.delete sid } := refl
  discarded.trans (send.trans reap)

theorem shutdown : Emits σ (σ.shutdown G env) := by
  unfold State.shutdown
  generalize σ.ptys.keys = sids
  induction sids generalizing σ
  case nil     => exact refl
  case cons hi => exact reap.trans hi

theorem drain {data : Option Bytes} : Emits σ (σ.drain G sid data env) := by
  unfold State.drain
  split
  case h_1 | h_2 => exact refl
  case h_3       => exact reap
  case h_4 p data _ _ =>
    have read {obuf} : Emits σ ({ σ with obuf }.record (.read p data)) :=
      record (by simp) (by simp)
    simp only
    split
    case isTrue => exact read.trans flush
    case isFalse =>
      split
      case isTrue  => exact read
      case isFalse => exact read

theorem insert {cmd : Value} {line : Bytes} {enc : Option Contrib.E2E} :
    Emits σ (σ.insert sid cmd line enc) :=
  ⟨[], by simp [State.insert, State.record], by simp [State.insert, State.queues, State.record],
    by simp [State.insert, State.sents, State.record]⟩

theorem spawn {cmd : Value} {line : Bytes} {enc : Option Contrib.E2E} :
    Emits σ (σ.spawn sid cmd line enc env) := by
  rcases σ.spawn_cases sid cmd line enc env with ⟨_, e⟩ | ⟨_, e | ⟨p, killed, e⟩⟩ <;> rw [e]
  case inl         => exact send
  case inr.inl     => exact insert
  case inr.inr     => exact insert.trans (record (by simp) (by simp))

theorem write {b : Bytes} : Emits σ (σ.write p b env) := by
  unfold State.write
  split
  case h_1 => exact record (by simp) (by simp)
  case h_2 => exact refl

theorem handle {m : Value} (e : handle H G int fleetKey σ m env = some σ') : Emits σ σ' := by
  cases Does.of_handle e
  case nothing | enrolled => exact refl
  case spawned            => exact spawn
  case refused            => exact send
  case typed              => exact write
  case tampered           => exact e2eKill
  case resized            => exact record (by simp) (by simp)
  case closed             => exact reap

end Emits

-- All that a callback does with frames.
theorem emits_or_sent {l : Label} (e : step H G int fleetKey σ l = some σ') :
    Emits σ σ' ∨ ∃ f outbox, σ.outbox = f :: outbox ∧ σ' = { σ with outbox }.record (.sent f) := by
  cases l <;> simp only [step] at e
  case frame m env =>
    split at e <;> cases e
    case isTrue =>
      cases hm : handle H G int fleetKey σ m env
      case none   => exact .inl .refl
      case some _ => exact .inl (.handle hm)
  case readable =>
    obtain ⟨_, _, e⟩ := Option.bind_eq_some_iff.mp e
    cases e
    exact .inl .drain
  case timer =>
    obtain ⟨_, _, e⟩ := Option.bind_eq_some_iff.mp e
    cases e
    exact .inl .flush
  case heartbeat    => cases e; exact .inl .send
  case disconnected => cases e; exact .inl .refl
  case shutdown     => cases e; exact .inl .shutdown
  case pumpOut =>
    split at e <;> cases e
    case h_2 f outbox ho => exact .inr ⟨f, outbox, ho, rfl⟩

theorem sents_step {l : Label} (e : step H G int fleetKey σ l = some σ') :
    σ.sents.reverse <+: σ'.sents.reverse := by
  rcases emits_or_sent e with ⟨_, _, _, same⟩ | ⟨f, outbox, _, rfl⟩
  case inl => exact same ▸ List.prefix_rfl
  case inr => simp [State.sents, State.record]

theorem InOrder.step {l : Label} (h : InOrder σ) (e : step H G int fleetKey σ l = some σ') :
    InOrder σ' := by
  rcases emits_or_sent e with emits | ⟨f, outbox, ho, rfl⟩
  case inl => exact h.emits emits
  case inr =>
    have before : σ.sents.reverse ++ f :: outbox = σ.queues := ho ▸ h
    simpa [InOrder, State.sents, State.queues, State.record] using before

end Contrib
