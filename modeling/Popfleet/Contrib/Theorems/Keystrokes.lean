import Popfleet.Contrib.Theorems.Contained

open Proto V1e

namespace Contrib

-- What a PTY received.
def received (p : Pty) (log : List Event) : Bytes :=
  (log.filterMap fun | .wrote q data => if q = p then some data else none | _ => none).reverse.flatten

-- What an in frame decodes to.
def decoded (G : Gcm tagLen) (σ : State) (sid : String) (data : Value) : Option Bytes :=
  match σ.enc.get? sid with
  | some enc => openValue G enc data
  | none     => b64decode data

-- The bytes that a callback has for a PTY: those of an in frame that is accepted.
def offered (G : Gcm tagLen) (p : Pty) (σ : State) : Label → Bytes
  | .frame m _ =>
    match m.field? "t", m.field? "sid" with
    | some (.str "in"), some (.str sid) =>
      if σ.ptys.get? sid = some p then
        (decoded G σ sid ((m.field? "data").getD (.str ""))).getD []
      else
        []
    | _, _ => []
  | _ => []

-- How many bytes `os.write` takes, which raises where the PTY would block.
def taken : Label → Nat
  | .frame _ env => env.write.getD 0
  | _            => 0

variable {H : Mac 32} {G : Gcm tagLen} {int : String → Option Int} {fleetKey : Option Bytes}
  {σ σ' : State} {sid : String} {p q : Pty} {data : Bytes} {log : List Event} {e : Event} {f : Msg}
  {env : Env} {nonce : Nonce} {l : Label}

theorem received_cons (h : ∀ data, e ≠ .wrote p data) : received p (e :: log) = received p log := by
  unfold received
  rw [List.filterMap_cons_none]
  split
  case h_2 => rfl
  case h_1 q data =>
    rw [if_neg]
    rintro rfl
    exact h data rfl

theorem received_wrote : received p (.wrote p data :: log) = received p log ++ data := by
  simp [received]

-- What writes to no PTY.

theorem send_received : received p (σ.send f).log = received p σ.log :=
  received_cons (by simp)

theorem flush_received : received p (σ.flush G sid nonce).log = received p σ.log := by
  simp only [State.flush]
  split
  case h_1 => rfl
  case h_2 =>
    split
    case isTrue => rfl
    case isFalse =>
      split
      case h_1 => exact send_received
      case h_2 => rfl

theorem reap_received {notify : Bool} :
    received p (σ.reap G sid notify env).log = received p σ.log := by
  unfold State.reap
  split
  case h_1 => rfl
  case h_2 q _ =>
    have flushed : received p ({ σ with ptys := σ.ptys.delete sid }.flush G sid (env.nonce sid)).log =
      received p σ.log := flush_received
    have killed {log : List Event} : received p (.killed q (env.code q) :: log) = received p log :=
      received_cons (by simp)
    split
    case isFalse => exact killed.trans flushed
    case isTrue  => exact send_received.trans (killed.trans flushed)

theorem shutdown_received : received p (σ.shutdown G env).log = received p σ.log := by
  unfold State.shutdown
  generalize σ.ptys.keys = sids
  induction sids generalizing σ
  case nil     => rfl
  case cons hi => exact hi.trans reap_received

theorem drain_received {data : Option Bytes} :
    received p (σ.drain G sid data env).log = received p σ.log := by
  unfold State.drain
  split
  case h_1 | h_2 => rfl
  case h_3 => exact reap_received
  case h_4 _ q data _ hq =>
    have read {log : List Event} : received p (.read q data :: log) = received p log :=
      received_cons (by simp)
    simp only
    split
    case isTrue => exact flush_received.trans read
    case isFalse =>
      split
      case isTrue  => exact read
      case isFalse => exact read

theorem spawn_received {cmd : Value} {line : Bytes} {enc : Option Contrib.E2E} :
    received p (σ.spawn sid cmd line enc env).log = received p σ.log := by
  have inserted : received p (σ.insert sid cmd line enc).log = received p σ.log :=
    received_cons (e := .spawned ⟨σ.next, sid⟩ cmd line) (by simp)
  rcases σ.spawn_cases sid cmd line enc env with ⟨_, e⟩ | ⟨_, e | ⟨q, killed, e⟩⟩ <;> rw [e]
  case inl     => exact send_received
  case inr.inl => exact inserted
  case inr.inr => exact (received_cons (e := .unwound q killed) (by simp)).trans inserted

theorem e2eKill_received {why : String} :
    received p (σ.e2eKill G sid why env).log = received p σ.log :=
  reap_received.trans send_received

theorem write_received : received p (σ.write q data env).log =
    received p σ.log ++ (if q = p then data else []).take (env.write.getD 0) := by
  unfold State.write
  split
  case h_2 h => simp [h]
  case h_1 n h =>
    split
    case isTrue hq => simp [State.record, hq, received_wrote, h]
    case isFalse hq =>
      rw [List.take_nil, List.append_nil]
      exact received_cons (by simp [hq])

-- An in frame that is not accepted, or raises, offers nothing.
theorem handleIn_received {data : Value} :
    received p ((handleIn G σ (.str sid) data env).getD { σ with pumping := false }).log =
      received p σ.log ++ (if σ.ptys.get? sid = some p then (decoded G σ sid data).getD [] else []).take
        (env.write.getD 0) := by
  cases hq : σ.ptys.get? sid
  case none => simp [handleIn, hq]
  case some q =>
    cases he : σ.enc.get? sid
    case some enc =>
      cases ho : openValue G enc data
      case none   => simp [handleIn, decoded, hq, he, ho, e2eKill_received]
      case some b => simp [handleIn, decoded, hq, he, ho, write_received]
    case none =>
      cases hd : b64decode data
      case none   => simp [handleIn, decoded, hq, he, hd]
      case some b => simp [handleIn, decoded, hq, he, hd, write_received]

theorem offered_nil {m : Value} (h : m.field? "t" ≠ some (.str "in")) :
    offered G p σ (.frame m env) = [] := by
  simp only [offered]
  split
  case h_1 ht _ => contradiction
  case h_2      => rfl

theorem handle_in {m : Value} (h : m.field? "t" = some (.str "in")) :
    handle H G int fleetKey σ m env =
      handleIn G σ ((m.field? "sid").getD .none) ((m.field? "data").getD (.str "")) env := by
  unfold Value.field? at h ⊢
  split at h
  case h_1 => simp [handle, h]
  case h_2 => contradiction

theorem handle_quiet {m : Value} (h : m.field? "t" ≠ some (.str "in"))
    (e : handle H G int fleetKey σ m env = some σ') : received p σ'.log = received p σ.log := by
  cases Does.of_handle e
  case nothing | enrolled => rfl
  case spawned            => exact spawn_received
  case refused            => exact send_received
  case typed ht           => exact absurd ht h
  case tampered           => exact e2eKill_received
  case resized            => exact received_cons (by simp)
  case closed             => exact reap_received

theorem handle_received {m : Value} :
    received p ((handle H G int fleetKey σ m env).getD { σ with pumping := false }).log =
      received p σ.log ++ (offered G p σ (.frame m env)).take (env.write.getD 0) := by
  by_cases ht : m.field? "t" = some (.str "in")
  case neg =>
    rw [offered_nil ht, List.take_nil, List.append_nil]
    cases e : handle H G int fleetKey σ m env
    case none   => rfl
    case some τ => exact handle_quiet ht e
  case pos =>
    simp only [handle_in ht, offered, ht]
    cases m.field? "sid"
    case none => simp [handleIn, Value.hashable]
    case some v =>
      cases v
      case str sid => exact handleIn_received
      all_goals simp [handleIn, Value.hashable]

-- A callback writes to a PTY what `os.write` takes of what there is for it.
theorem step_received (e : step H G int fleetKey σ l = some σ') :
    received p σ'.log = received p σ.log ++ (offered G p σ l).take (taken l) := by
  cases l
  case frame m env =>
    simp only [step, Option.ite_none_right_eq_some, Option.some.injEq] at e
    exact e.right ▸ handle_received
  all_goals simp only [offered, List.take_nil, List.append_nil]; simp only [step] at e
  case readable =>
    have ⟨_, _, e⟩ := Option.bind_eq_some_iff.mp e
    cases e
    exact drain_received
  case timer id env =>
    have ⟨_, _, e⟩ := Option.bind_eq_some_iff.mp e
    cases e
    exact flush_received
  case heartbeat    => cases e; exact send_received
  case disconnected => cases e; rfl
  case shutdown     => cases e; exact shutdown_received
  case pumpOut =>
    split at e <;> cases e
    case h_2 => exact received_cons (by simp)

theorem length_flatMap_take {l : List (Bytes × Nat)} :
    (l.flatMap fun f => f.1.take f.2).length ≤ (l.flatMap (·.1)).length := by
  induction l
  case nil => exact Nat.le_refl 0
  case cons f l hi =>
    simp only [List.flatMap_cons, List.length_append, List.length_take]
    omega

-- What is left of a frame is missing, and nothing that follows makes up for it.
theorem flatMap_take_eq_iff {l : List (Bytes × Nat)} :
    (l.flatMap fun f => f.1.take f.2) = l.flatMap (·.1) ↔ ∀ f ∈ l, f.1.length ≤ f.2 := by
  constructor
  case mpr => exact fun h => List.flatMap_congr fun f hf => List.take_of_length_le (h f hf)
  case mp =>
    intro h
    induction l
    case nil => simp
    case cons f l hi =>
      simp only [List.flatMap_cons] at h
      have whole : f.1.length ≤ f.2 := by
        have length := congrArg List.length h
        have rest := @length_flatMap_take l
        simp only [List.length_append, List.length_take] at length
        omega
      rw [List.take_of_length_le whole] at h
      exact List.forall_mem_cons.mpr ⟨whole, hi (List.append_cancel_left h)⟩

-- A PTY has received all of the frames accepted for it just when each write took all of its bytes: what
-- `os.write` leaves is kept nowhere.
theorem keystrokes_whole_iff {ls : List Label} (e : (system H G int fleetKey).run {} ls = some σ) :
    let frames := (system H G int fleetKey).observe (fun σ l => (offered G p σ l, taken l)) {} ls
    received p σ.log = frames.flatMap (·.1) ↔ ∀ f ∈ frames, f.1.length ≤ f.2 := by
  intro frames
  have writes : received p σ.log = frames.flatMap fun f => f.1.take f.2 :=
    Transition.append_of_run (g := fun σ => received p σ.log) (fun _ _ _ e => step_received e) e
  rw [writes, flatMap_take_eq_iff]

-- The browser of a0 types "ls" and a line break, of which the PTY takes so many bytes.
def sampleKeystrokes (n : Nat) : List Label :=
  [.frame (.ofMsg { t := "open", sid := "a0" }) sampleEnv,
    .frame (.ofMsg { t := "in", sid := "a0", data := "bHM=" }) { sampleEnv with write := some n },
    .frame (.ofMsg { t := "in", sid := "a0", data := "Cg==" }) { sampleEnv with write := some 1 }]

theorem keystrokes_whole_iff_sample :
    ∃ σ, (system sampleMac sampleGcm (fun _ => none) none).run {} (sampleKeystrokes 2) = some σ ∧
      received ⟨0, "a0"⟩ σ.log = [108, 115, 10] := by
  let T := system sampleMac sampleGcm (fun _ => none) none
  have ran : (T.run {} (sampleKeystrokes 2)).isSome := by decide
  have ⟨σ, e⟩ := Option.isSome_iff_exists.mp ran
  exact ⟨σ, e, ((@keystrokes_whole_iff _ _ _ _ _ ⟨0, "a0"⟩ _ e).mpr (by decide)).trans (by decide)⟩

-- The PTY takes the "l" of it, and then the line break.
theorem keystrokes_lost :
    ∃ σ, (system sampleMac sampleGcm (fun _ => none) none).run {} (sampleKeystrokes 1) = some σ ∧
      let typed := ((system sampleMac sampleGcm (fun _ => none) none).observe
        (fun σ l => (offered sampleGcm ⟨0, "a0"⟩ σ l, taken l)) {} (sampleKeystrokes 1)).flatMap (·.1)
      typed = [108, 115, 10] ∧ received ⟨0, "a0"⟩ σ.log = [108, 10] ∧
        ¬received ⟨0, "a0"⟩ σ.log <+: typed := by
  let T := system sampleMac sampleGcm (fun _ => none) none
  have ran : (T.run {} (sampleKeystrokes 1)).isSome := by decide
  have ⟨σ, e⟩ := Option.isSome_iff_exists.mp ran
  have got : received ⟨0, "a0"⟩ σ.log = [108, 10] :=
    Transition.eq_of_run (f := fun σ => received ⟨0, "a0"⟩ σ.log) e (by decide)
  exact ⟨σ, e, by decide, got, by rw [got]; decide⟩

end Contrib
