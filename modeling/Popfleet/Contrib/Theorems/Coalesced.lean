import Popfleet.Lib.Chunks
import Popfleet.Contrib.Theorems.Sealed

open Proto V1e Transition

namespace Contrib

-- The PTY of a sid that was spawned and not killed yet.
def live (sid : String) : List Event → Option Pty
  | []                    => none
  | .spawned p _ _ :: log => if p.sid = sid then some p else live sid log
  | .killed p _ :: log    => if p.sid = sid then none else live sid log
  | _ :: log              => live sid log

-- The PTY that a frame for a sid is of: the one that lives, or the one that ended just before.
def owner (sid : String) (log : List Event) : Option Pty :=
  match log with
  | .killed p _ :: _ => if p.sid = sid then some p else live sid log
  | _                => live sid log

-- The frames of a PTY in the order in which they were queued.
def frames (p : Pty) : List Event → List Msg
  | []               => []
  | .queued f :: log => if owner f.sid log = some p then frames p log ++ [f] else frames p log
  | _ :: log         => frames p log

-- What an out frame carries.
def payload (H : Mac 32) (G : Gcm tagLen) (fleetKey : Option Bytes) (f : Msg) : Option Bytes :=
  match fleetKey with
  | none          => Base64.decode f.data
  | some fleetKey => do (← Contrib.E2E.init H fleetKey f.sid).openWire G f.data

-- The out frames of a PTY.
def outs (p : Pty) (log : List Event) : List Msg :=
  (frames p log).filter (·.t = "out")

-- What is buffered of a PTY.
def pending (σ : State) (p : Pty) : Bytes :=
  if σ.ptys.get? p.sid = some p then (σ.obuf.get? p.sid).getD [] else []

-- What was read of a PTY was queued or is buffered. `e2e_kill` sends err to the PTY that it ends, and
-- forgets what is buffered.
def Lossless (H : Mac 32) (G : Gcm tagLen) (fleetKey : Option Bytes) (σ : State) : Prop :=
  ∀ p, (∀ f ∈ frames p σ.log, f.t ≠ "err") →
    ∃ b, Carries (payload H G fleetKey) (outs p σ.log) b ∧ b ++ pending σ p = reads p σ.log

-- What is buffered is about to be flushed.
def Armed (σ : State) : Prop :=
  ∀ sid, (σ.obuf.get? sid).isSome → (σ.oflush.get? sid).isSome

-- An out frame is of a PTY that lives, and an exit frame of one that just ended, unless it says that
-- there is none.
def Owned (before : List Event) (e : Event) : Prop :=
  ∀ f, e = .queued f → (f.t = "out" → (live f.sid before).isSome) ∧
    (f.t = "exit" → (owner f.sid before).isSome ∨ f.code = some 127)

-- The tables have entries for the PTYs that live only, each timer is that of its sid, and no frame
-- follows the exit frame of a PTY.
structure Tidy (H : Mac 32) (fleetKey : Option Bytes) (σ : State) : Prop where
  live   : ∀ sid, σ.ptys.get? sid = live sid σ.log
  enc    : ∀ sid, σ.enc.get? sid =
    (σ.ptys.get? sid).bind fun _ => fleetKey.bind (Contrib.E2E.init H · sid)
  obuf   : ∀ {sid buf}, σ.obuf.get? sid = some buf → buf ≠ [] ∧ (σ.ptys.get? sid).isSome
  oflush : ∀ {sid id}, σ.oflush.get? sid = some id →
    (σ.ptys.get? sid).isSome ∧ σ.timers.get? id = some sid
  timers : ∀ {sid id}, σ.timers.get? id = some sid → σ.oflush.get? sid = some id ∧ id < σ.next
  young  : ∀ {p}, owner p.sid σ.log = some p → p.ptr < σ.next
  fresh  : ∀ {p}, σ.next ≤ p.ptr → frames p σ.log = []
  exits  : ∀ {p}, owner p.sid σ.log = some p → ∀ f ∈ frames p σ.log, f.t ≠ "exit"
  last   : ∀ p, ∀ f ∈ (frames p σ.log).dropLast, f.t ≠ "exit"
  owned  : Throughout Owned σ.log

variable {H : Mac 32} {G : Gcm tagLen} {int : String → Option Int} {fleetKey : Option Bytes}
  {σ σ' : State} {sid : String} {p q : Pty} {data b : Bytes} {log : List Event} {e : Event} {f : Msg}
  {l : List Msg} {env : Env} {nonce : Nonce}

theorem live_named (h : live sid log = some p) : p.sid = sid := by
  induction log
  case nil => contradiction
  case cons e log hi =>
    cases e
    case spawned q _ _ =>
      simp only [live] at h
      split at h
      case isTrue hq => cases h; exact hq
      case isFalse   => exact hi h
    case killed q _ =>
      simp only [live] at h
      split at h
      case isTrue  => contradiction
      case isFalse => exact hi h
    all_goals exact hi h

theorem owner_of_live (h : live sid log = some p) : owner sid log = some p := by
  unfold owner
  split
  case h_2 => exact h
  case h_1 q _ log =>
    split
    case isFalse  => exact h
    case isTrue hq => simp [live, hq] at h

theorem owner_named (h : owner sid log = some p) : p.sid = sid := by
  unfold owner at h
  split at h
  case h_2 => exact live_named h
  case h_1 =>
    split at h
    case isTrue hq => cases h; exact hq
    case isFalse   => exact live_named h

theorem frames_queued : frames p (.queued f :: log) =
    if owner f.sid log = some p then frames p log ++ [f] else frames p log :=
  rfl

theorem outs_other (hf : f.t ≠ "out") : outs p (.queued f :: log) = outs p log := by
  simp only [outs, frames_queued]
  split
  case isTrue  => simp [hf]
  case isFalse => rfl

-- The events that are about no PTY's life and are no frames for the broker.
def Event.plain : Event → Bool
  | .unwound _ _ | .wrote _ _ | .resized _ _ _ | .sent _ | .read _ _ => true
  | _                                                                => false

theorem live_plain (he : e.plain) : live sid (e :: log) = live sid log := by
  cases e <;> first | rfl | contradiction

theorem owner_plain (he : e.plain) : owner sid (e :: log) = live sid log := by
  cases e <;> first | rfl | contradiction

theorem frames_plain (he : e.plain) : frames p (e :: log) = frames p log := by
  cases e <;> first | rfl | contradiction

namespace Tidy

theorem record (h : Tidy H fleetKey σ) (he : e.plain) : Tidy H fleetKey (σ.record e) where
  live sid     := (h.live sid).trans (live_plain he).symm
  enc          := h.enc
  obuf         := h.obuf
  oflush       := h.oflush
  timers       := h.timers
  young hp     := h.young (owner_of_live ((owner_plain he).symm.trans hp))
  fresh hp     := (frames_plain he).trans (h.fresh hp)
  exits hp     := by
    rw [State.record, frames_plain he]
    exact h.exits (owner_of_live ((owner_plain he).symm.trans hp))
  last p       := by
    rw [State.record, frames_plain he]
    exact h.last p
  owned        := .cons (fun f hf => by subst hf; contradiction) h.owned

theorem send (h : Tidy H fleetKey σ) (ho : f.t = "out" → (σ.ptys.get? f.sid).isSome)
    (he : f.t = "exit" → σ.ptys.get? f.sid = none ∧
      ((owner f.sid σ.log).isSome ∨ f.code = some 127)) :
    Tidy H fleetKey (σ.send f) := by
  refine { h with young := fun hp => ?_, fresh := fun hp => ?_, exits := fun hp g hg => ?_
                  last := fun p g hg => ?_, owned := .cons ?_ h.owned }
  case refine_1 => exact h.young (owner_of_live hp)
  case refine_2 p =>
    simp only [State.send, State.record, frames_queued]
    split
    case isFalse => exact h.fresh hp
    case isTrue howner =>
      have younger := h.young (owner_named howner ▸ howner)
      exact absurd hp (Nat.not_le_of_lt younger)
  case refine_3 p =>
    replace hp : Contrib.live p.sid σ.log = some p := hp
    have before := h.exits (owner_of_live hp)
    simp only [State.send, State.record, frames_queued] at hg
    split at hg
    case isFalse => exact before g hg
    case isTrue howner =>
      cases List.mem_append.mp hg
      case inl hg => exact before g hg
      case inr hg =>
        cases List.mem_singleton.mp hg
        intro exit
        obtain ⟨dead, _⟩ := he exit
        rw [← owner_named howner, h.live, hp] at dead
        contradiction
  case refine_4 =>
    simp only [State.send, State.record, frames_queued] at hg
    split at hg
    case isFalse => exact h.last p g hg
    case isTrue howner =>
      rw [List.dropLast_concat] at hg
      exact h.exits (owner_named howner ▸ howner) g hg
  case refine_5 =>
    rintro g ⟨⟩
    exact ⟨fun out => h.live f.sid ▸ ho out, fun exit => (he exit).right⟩

theorem cancelTimer (h : Tidy H fleetKey σ) : Tidy H fleetKey (σ.cancelTimer sid) := by
  refine { h with oflush := fun {sid' id} ho => ?_, timers := fun {sid' id} ht => ?_ }
  case refine_1 =>
    obtain ⟨hne, ho⟩ := GoMap.of_get?_delete ho
    obtain ⟨alive, timer⟩ := h.oflush ho
    refine ⟨alive, ?_⟩
    simp only [State.cancelTimer]
    split
    case h_2 => exact timer
    case h_1 id' ho' =>
      have other : id ≠ id' := by
        rintro rfl
        exact hne (Option.some.inj (timer.symm.trans (h.oflush ho').right))
      simpa [other] using timer
  case refine_2 =>
    have kept : σ.timers.get? id = some sid' ∧ sid' ≠ sid := by
      simp only [State.cancelTimer] at ht
      split at ht
      case h_1 id' ho' =>
        obtain ⟨hne, ht⟩ := GoMap.of_get?_delete ht
        refine ⟨ht, ?_⟩
        rintro rfl
        exact hne (Option.some.inj ((h.timers ht).left.symm.trans ho'))
      case h_2 ho' =>
        refine ⟨ht, ?_⟩
        rintro rfl
        rw [(h.timers ht).left] at ho'
        contradiction
    obtain ⟨timer, hne⟩ := kept
    exact ⟨by simpa [State.cancelTimer, hne] using (h.timers timer).left, (h.timers timer).right⟩

theorem deleteObuf (h : Tidy H fleetKey σ) : Tidy H fleetKey { σ with obuf := σ.obuf.delete sid } :=
  { h with obuf := fun hb => h.obuf (GoMap.of_get?_delete hb).right }

-- What is sealed or encoded for a PTY opens again.
theorem wire (h : Tidy H fleetKey σ) (hq : σ.ptys.get? sid = some q) (nonce : Nonce) (buf : Bytes) :
    ∃ wire, (match σ.enc.get? sid with
        | some enc => enc.sealPlain G nonce.val buf
        | none     => some (Base64.encode buf)) = some wire ∧
      payload H G fleetKey { t := "out", sid, data := wire } = some buf := by
  rw [h.enc sid, hq, Option.bind_some]
  cases fleetKey
  case none => exact ⟨_, rfl, Base64.decode_encode⟩
  case some fleetKey =>
    simp only [payload, Option.bind_some, Contrib.E2E.init_eq,
      Contrib.E2E.sealPlain_eq nonce.property]
    exact ⟨_, rfl, Contrib.E2E.openWire_eq_some.mpr
      ⟨_, _, Base64.b64decode_encode, nonce.property, Gcm.decrypt_encrypt⟩⟩

-- All that a flush does.
theorem flush_cases (h : Tidy H fleetKey σ) (sid : String) (nonce : Nonce) :
    (σ.obuf.get? sid = none ∧ σ.flush G sid nonce = σ.cancelTimer sid) ∨
    ∃ q buf wire, σ.ptys.get? sid = some q ∧ σ.obuf.get? sid = some buf ∧
      payload H G fleetKey { t := "out", sid, data := wire } = some buf ∧
      σ.flush G sid nonce =
        { σ.cancelTimer sid with obuf := σ.obuf.delete sid }.send { t := "out", sid, data := wire } := by
  cases hb : σ.obuf.get? sid
  case none => exact .inl ⟨rfl, by simp [State.flush, State.cancelTimer, hb]⟩
  case some buf =>
    obtain ⟨full, alive⟩ := h.obuf hb
    obtain ⟨q, hq⟩ := Option.isSome_iff_exists.mp alive
    obtain ⟨wire, sealed, opens⟩ := h.wire (G := G) hq nonce buf
    refine .inr ⟨q, buf, wire, hq, rfl, opens, ?_⟩
    simp only [State.flush, State.cancelTimer, hb, full, if_false]
    split
    case h_1 data hd => cases sealed.symm.trans hd; rfl
    case h_2 hd      => cases sealed.symm.trans hd

theorem flush (h : Tidy H fleetKey σ) : Tidy H fleetKey (σ.flush G sid nonce) := by
  cases h.flush_cases (G := G) sid nonce
  case inl hf => exact hf.right ▸ h.cancelTimer
  case inr hf =>
    have ⟨q, buf, wire, hq, hb, opens, e⟩ := hf
    have emptied : Tidy H fleetKey { σ.cancelTimer sid with obuf := σ.obuf.delete sid } :=
      h.cancelTimer.deleteObuf
    rw [e]
    exact emptied.send (fun _ => by simp [State.cancelTimer, hq]) (by simp)

end Tidy

theorem State.flush_oflush : (σ.flush G sid nonce).oflush = σ.oflush.delete sid := by
  simp only [State.flush]
  split
  case h_1 => rfl
  case h_2 =>
    split
    case isTrue  => rfl
    case isFalse => split <;> rfl

theorem Armed.flush (h : ∀ sid' ≠ sid, (σ.obuf.get? sid').isSome → (σ.oflush.get? sid').isSome) :
    Armed (σ.flush G sid nonce) := by
  intro sid' hb
  have hne : sid' ≠ sid := by
    rintro rfl
    simp [State.flush_obuf] at hb
  have kept : (σ.flush G sid nonce).obuf.get? sid' = σ.obuf.get? sid' := by
    simp only [State.flush, State.cancelTimer]
    split
    case h_1 => rfl
    case h_2 =>
      split
      case isTrue  => simp [hne]
      case isFalse => split <;> simp [State.send, State.record, hne]
  rw [kept] at hb
  simpa [State.flush_oflush, hne] using h sid' hne hb

-- What is buffered of a PTY is queued as the payload of its next out frame.
theorem Lossless.flush (ht : Tidy H fleetKey σ) (h : Lossless H G fleetKey σ) :
    Lossless H G fleetKey (σ.flush G sid nonce) := by
  cases ht.flush_cases (G := G) sid nonce
  case inl hf => exact hf.right ▸ h
  case inr hf =>
    obtain ⟨q, buf, wire, hq, hb, opens, e⟩ := hf
    have alive : live sid σ.log = some q := (ht.live sid).symm.trans hq
    rw [e]
    intro p quiet
    simp only [State.send, State.record, State.cancelTimer, frames_queued] at quiet ⊢
    by_cases hp : q = p
    case pos =>
      subst hp
      have named : q.sid = sid := live_named alive
      rw [if_pos (owner_of_live alive)] at quiet
      obtain ⟨b, carried, read⟩ := h q fun f hf => quiet f (List.mem_append_left _ hf)
      refine ⟨b ++ buf, ?_, ?_⟩
      case refine_1 => simpa [outs, frames_queued, owner_of_live alive] using carried.snoc opens
      case refine_2 =>
        rw [reads_cons (by simp), ← read]
        simp [pending, named, hq, hb]
    case neg =>
      have other : owner sid σ.log ≠ some p := by
        rw [owner_of_live alive]
        simpa using hp
      rw [if_neg other] at quiet
      obtain ⟨b, carried, read⟩ := h p quiet
      refine ⟨b, by simpa [outs, frames_queued, other] using carried, ?_⟩
      rw [reads_cons (by simp), ← read]
      by_cases named : p.sid = sid
      case pos => simp [pending, named, hq, hp]
      case neg => simp [pending, named]

theorem owner_spawned {cmd : Value} {line : Bytes}
    (h : owner q.sid (.spawned p cmd line :: log) = some q) : q = p ∨ live q.sid log = some q := by
  simp only [owner, live] at h
  split at h
  case isTrue  => exact .inl (Option.some.inj h).symm
  case isFalse => exact .inr h

-- What `reap` does to the PTY, once what is left of it is flushed.
def State.ended (σ : State) (p : Pty) (code : Int) : State :=
  { σ with
    ptys    := σ.ptys.delete p.sid
    enc     := σ.enc.delete p.sid
    readers := σ.readers.delete p }.record (.killed p code)

theorem live_of_owner_killed {code : Int} (h : owner q.sid (.killed p code :: log) = some q)
    (hp : live p.sid log = some p) : live q.sid log = some q := by
  simp only [owner, live] at h
  split at h
  case isTrue hs =>
    cases h
    exact hp
  case isFalse hs => simpa [hs] using h

namespace Tidy

theorem reap_cases (h : Tidy H fleetKey σ) (sid : String) (notify : Bool) (env : Env) :
    (σ.ptys.get? sid = none ∧ σ.reap G sid notify env = σ) ∨
    ∃ p, p.sid = sid ∧ σ.ptys.get? p.sid = some p ∧ σ.reap G sid notify env =
      let τ := (σ.flush G p.sid (env.nonce p.sid)).ended p (env.code p)
      if notify then τ.send { t := "exit", sid := p.sid, code := some (env.code p) } else τ := by
  unfold State.reap
  split
  case h_1 none => exact .inl ⟨none, rfl⟩
  case h_2 p hp =>
    obtain rfl : p.sid = sid := live_named ((h.live sid).symm.trans hp)
    refine .inr ⟨p, rfl, hp, ?_⟩
    simp only [State.flush_ptys, State.ended, State.flush_ptys_eq]

theorem ended {code : Int} (h : Tidy H fleetKey σ) (hp : σ.ptys.get? p.sid = some p)
    (hb : σ.obuf.get? p.sid = none) (ho : σ.oflush.get? p.sid = none) :
    Tidy H fleetKey (σ.ended p code) := by
  have alive : Contrib.live p.sid σ.log = some p := (h.live p.sid).symm.trans hp
  constructor <;> simp only [State.ended, State.record]
  case live =>
    intro sid
    simp only [GoMap.get?_delete, Contrib.live, eq_comm (a := sid), h.live sid]
  case enc =>
    intro sid
    simp only [GoMap.get?_delete, h.enc sid]
    split <;> rfl
  case obuf =>
    intro sid buf hb'
    have hne : sid ≠ p.sid := by
      rintro rfl
      simp [hb] at hb'
    simpa [hne] using h.obuf hb'
  case oflush =>
    intro sid id ho'
    have hne : sid ≠ p.sid := by
      rintro rfl
      simp [ho] at ho'
    simpa [hne] using h.oflush ho'
  case timers => exact h.timers
  case young  => exact fun hq => h.young (owner_of_live (live_of_owner_killed hq alive))
  case fresh  => exact h.fresh
  case exits  => exact fun hq => h.exits (owner_of_live (live_of_owner_killed hq alive))
  case last   => exact h.last
  case owned  => exact .cons (by rintro _ ⟨⟩) h.owned

theorem reap {notify : Bool} (h : Tidy H fleetKey σ) :
    Tidy H fleetKey (σ.reap G sid notify env) := by
  cases h.reap_cases (G := G) sid notify env
  case inl hr =>
    rw [hr.right]
    exact h
  case inr hr =>
    have ⟨p, _, hp, e⟩ := hr
    have flushed : Tidy H fleetKey (σ.flush G p.sid (env.nonce p.sid)) := h.flush
    have ended : Tidy H fleetKey ((σ.flush G p.sid (env.nonce p.sid)).ended p (env.code p)) :=
      flushed.ended (by rw [State.flush_ptys_eq]; exact hp) State.flush_obuf (by simp [State.flush_oflush])
    rw [e]
    split
    case isFalse => exact ended
    case isTrue =>
      exact ended.send (by simp) fun _ => ⟨by simp [State.ended, State.record],
        .inl (by simp [State.ended, State.record, owner])⟩

theorem arm (h : Tidy H fleetKey σ) (hp : (σ.ptys.get? sid).isSome) (ho : σ.oflush.get? sid = none) :
    Tidy H fleetKey { σ with
      oflush := σ.oflush.set sid σ.next, timers := σ.timers.set σ.next sid, next := σ.next + 1 } := by
  refine { h with oflush := fun ho' => ?_, timers := fun ht => ?_, young := fun hq => ?_
                  fresh := fun hq => h.fresh (Nat.le_of_succ_le hq) }
  case refine_1 =>
    cases GoMap.of_get?_set ho'
    case inl hs =>
      obtain ⟨rfl, rfl⟩ := hs
      exact ⟨hp, by simp⟩
    case inr hs =>
      have ⟨alive, timer⟩ := h.oflush hs.right
      have older := (h.timers timer).right
      exact ⟨alive, by simpa [Nat.ne_of_lt older] using timer⟩
  case refine_2 sid' id =>
    cases GoMap.of_get?_set ht
    case inl hs =>
      obtain ⟨rfl, rfl⟩ := hs
      exact ⟨by simp, Nat.lt_succ_self _⟩
    case inr hs =>
      have ⟨timer, older⟩ := h.timers hs.right
      have hne : sid' ≠ sid := by
        rintro rfl
        simp [ho] at timer
      exact ⟨by simpa [hne] using timer, Nat.lt_succ_of_lt older⟩
  case refine_3 => exact Nat.lt_succ_of_lt (h.young hq)

theorem insert {cmd : Value} {line : Bytes} {enc : Option Contrib.E2E} (h : Tidy H fleetKey σ)
    (hn : σ.ptys.get? sid = none) (he : enc = fleetKey.bind (Contrib.E2E.init H · sid)) :
    Tidy H fleetKey (σ.insert sid cmd line enc) := by
  have none : σ.enc.get? sid = none := by rw [h.enc, hn]; rfl
  constructor <;> simp only [State.insert, State.record]
  case live =>
    intro sid'
    simp only [GoMap.get?_set, Contrib.live, eq_comm (a := sid'), h.live sid']
  case enc =>
    intro sid'
    by_cases hs : sid' = sid
    case pos =>
      subst hs
      cases enc
      case none     => simp [none, ← he]
      case some enc => simp [← he]
    case neg => cases enc <;> simp [hs, h.enc sid']
  case obuf =>
    intro sid' buf hb
    have hne : sid' ≠ sid := by
      rintro rfl
      obtain ⟨_, alive⟩ := h.obuf hb
      simp [hn] at alive
    simpa [hne] using h.obuf hb
  case oflush =>
    intro sid' id ho
    have hne : sid' ≠ sid := by
      rintro rfl
      obtain ⟨alive, _⟩ := h.oflush ho
      simp [hn] at alive
    simpa [hne] using h.oflush ho
  case timers => exact fun ht => ⟨(h.timers ht).left, Nat.lt_succ_of_lt (h.timers ht).right⟩
  case young =>
    intro q hq
    cases owner_spawned hq
    case inl hq => exact hq ▸ Nat.lt_succ_self _
    case inr hq => exact Nat.lt_succ_of_lt (h.young (owner_of_live hq))
  case fresh => exact fun hq => h.fresh (Nat.le_of_succ_le hq)
  case exits =>
    intro q hq f hf
    cases owner_spawned hq
    case inr hq => exact h.exits (owner_of_live hq) f hf
    case inl hq =>
      have unused : frames q σ.log = [] := h.fresh (hq ▸ Nat.le_refl _)
      replace hf : f ∈ frames q σ.log := hf
      rw [unused] at hf
      contradiction
  case last  => exact h.last
  case owned => exact .cons (by rintro _ ⟨⟩) h.owned

theorem spawn {cmd : Value} {line : Bytes} {enc : Option Contrib.E2E} (h : Tidy H fleetKey σ)
    (hn : σ.ptys.get? sid = none) (he : enc = fleetKey.bind (Contrib.E2E.init H · sid)) :
    Tidy H fleetKey (σ.spawn sid cmd line enc env) := by
  have inserted : Tidy H fleetKey (σ.insert sid cmd line enc) := h.insert hn he
  rcases σ.spawn_cases sid cmd line enc env with ⟨_, e⟩ | ⟨_, e | ⟨p, killed, e⟩⟩ <;> rw [e]
  case inl         => exact h.send (by simp) fun _ => ⟨hn, .inr rfl⟩
  case inr.inl     => exact inserted
  case inr.inr     => exact inserted.record rfl

end Tidy

namespace Lossless

theorem congr (h : Lossless H G fleetKey σ) (hf : ∀ p, frames p σ'.log = frames p σ.log)
    (hr : ∀ p, reads p σ'.log = reads p σ.log) (hp : ∀ p, pending σ' p = pending σ p) :
    Lossless H G fleetKey σ' := by
  intro p quiet
  rw [hf] at quiet
  rw [outs, hf, hr, hp]
  exact h p quiet

theorem send (h : Lossless H G fleetKey σ) (hf : f.t ≠ "out") : Lossless H G fleetKey (σ.send f) := by
  intro p quiet
  have read : reads p (σ.send f).log = reads p σ.log := reads_cons (by simp)
  have sent : outs p (σ.send f).log = outs p σ.log := outs_other hf
  rw [read, sent]
  refine h p fun g hg => quiet g ?_
  simp only [State.send, State.record, frames_queued]
  split
  case isTrue  => exact List.mem_append_left _ hg
  case isFalse => exact hg

-- The PTY that is sent err may lose what is buffered of it.
theorem discard (ht : Tidy H fleetKey σ) (h : Lossless H G fleetKey σ) (hf : f.t = "err") :
    Lossless H G fleetKey ({ σ with obuf := σ.obuf.delete f.sid }.send f) := by
  intro p quiet
  have ⟨b, carried, read⟩ := h.send (f := f) (by simp [hf]) p quiet
  refine ⟨b, carried, ?_⟩
  have unowned : σ.ptys.get? f.sid ≠ some p := by
    intro alive
    rw [ht.live] at alive
    refine quiet f ?_ hf
    simp only [State.send, State.record, frames_queued, if_pos (owner_of_live alive)]
    exact List.mem_append_right _ List.mem_cons_self
  have same : pending ({ σ with obuf := σ.obuf.delete f.sid }.send f) p = pending (σ.send f) p := by
    by_cases named : p.sid = f.sid
    case pos => simp [pending, State.send, State.record, named, unowned]
    case neg =>
      have kept : (σ.obuf.delete f.sid).get? p.sid = σ.obuf.get? p.sid := by simp [named]
      exact congrArg (fun buf => if σ.ptys.get? p.sid = some p then buf.getD [] else []) kept
  rw [same]
  exact read

theorem ended {code : Int} (h : Lossless H G fleetKey σ) (hb : σ.obuf.get? p.sid = none) :
    Lossless H G fleetKey (σ.ended p code) := by
  refine h.congr (fun _ => rfl) (fun _ => reads_cons (by simp)) fun q => ?_
  by_cases named : q.sid = p.sid
  case pos => simp [pending, State.ended, State.record, named, hb]
  case neg => simp [pending, State.ended, State.record, named]

theorem buffer (h : Lossless H G fleetKey σ) (hp : σ.ptys.get? p.sid = some p) :
    Lossless H G fleetKey ({ σ with
      obuf := σ.obuf.set p.sid ((σ.obuf.get? p.sid).getD [] ++ data) }.record (.read p data)) := by
  intro q quiet
  have ⟨b, carried, read⟩ := h q quiet
  refine ⟨b, carried, ?_⟩
  by_cases hq : p = q
  case pos =>
    subst hq
    simp only [State.record, reads_read, ← read]
    simp [pending, hp]
  case neg =>
    have other : reads q (.read p data :: σ.log) = reads q σ.log := reads_cons (by simp [hq])
    simp only [State.record, other, ← read]
    by_cases named : q.sid = p.sid
    case pos => simp [pending, named, hp, hq]
    case neg => simp [pending, named]

end Lossless

-- The three together.
structure Coalesced (H : Mac 32) (G : Gcm tagLen) (fleetKey : Option Bytes) (σ : State) : Prop where
  tidy     : Tidy H fleetKey σ
  lossless : Lossless H G fleetKey σ
  armed    : Armed σ

namespace Coalesced

theorem record (h : Coalesced H G fleetKey σ) (he : e.plain) (hr : ∀ p data, e ≠ .read p data) :
    Coalesced H G fleetKey (σ.record e) :=
  ⟨h.tidy.record he, h.lossless.congr (fun _ => frames_plain he) (fun p => reads_cons (hr p)) fun _ => rfl,
    h.armed⟩

theorem send (h : Coalesced H G fleetKey σ) (ho : f.t ≠ "out")
    (he : f.t = "exit" → σ.ptys.get? f.sid = none ∧
      ((owner f.sid σ.log).isSome ∨ f.code = some 127)) :
    Coalesced H G fleetKey (σ.send f) :=
  ⟨h.tidy.send (absurd · ho) he, h.lossless.send ho, h.armed⟩

theorem flush (h : Coalesced H G fleetKey σ) : Coalesced H G fleetKey (σ.flush G sid nonce) :=
  ⟨h.tidy.flush, h.lossless.flush h.tidy, .flush fun sid' _ => h.armed sid'⟩

theorem reap {notify : Bool} (h : Coalesced H G fleetKey σ) :
    Coalesced H G fleetKey (σ.reap G sid notify env) := by
  have tidy : Tidy H fleetKey (σ.reap G sid notify env) := h.tidy.reap
  cases h.tidy.reap_cases (G := G) sid notify env
  case inl hr =>
    rw [hr.right]
    exact h
  case inr hr =>
    have ⟨p, _, _, e⟩ := hr
    have flushed : Coalesced H G fleetKey (σ.flush G p.sid (env.nonce p.sid)) := h.flush
    have ended : Lossless H G fleetKey ((σ.flush G p.sid (env.nonce p.sid)).ended p (env.code p)) :=
      flushed.lossless.ended State.flush_obuf
    rw [e] at tidy ⊢
    cases notify
    case true  => exact ⟨tidy, ended.send (by simp), flushed.armed⟩
    case false => exact ⟨tidy, ended, flushed.armed⟩

theorem e2eKill {why : String} (h : Coalesced H G fleetKey σ) :
    Coalesced H G fleetKey (σ.e2eKill G sid why env) := by
  have discarded : Coalesced H G fleetKey
      ({ σ with obuf := σ.obuf.delete sid }.send { t := "err", sid, msg := why }) := by
    refine ⟨h.tidy.deleteObuf.send (by simp) (by simp), h.lossless.discard h.tidy rfl, ?_⟩
    intro sid' hb
    have ⟨buf, hb⟩ := Option.isSome_iff_exists.mp hb
    exact h.armed sid' (Option.isSome_iff_exists.mpr ⟨buf, (GoMap.of_get?_delete hb).right⟩)
  exact discarded.reap

theorem shutdown (h : Coalesced H G fleetKey σ) : Coalesced H G fleetKey (σ.shutdown G env) := by
  unfold State.shutdown
  generalize σ.ptys.keys = sids
  induction sids generalizing σ
  case nil     => exact h
  case cons hi => exact hi h.reap

-- A callback that leaves something in the buffer has a timer for it, an old one or its own.
theorem drain {data : Option Bytes} (h : Coalesced H G fleetKey σ) :
    Coalesced H G fleetKey (σ.drain G sid data env) := by
  unfold State.drain
  split
  case h_1 | h_2 => exact h
  case h_3 => exact h.reap
  case h_4 p data full hp =>
    obtain rfl : p.sid = sid := live_named ((h.tidy.live sid).symm.trans hp)
    let τ := { σ with
      obuf := σ.obuf.set p.sid ((σ.obuf.get? p.sid).getD [] ++ data) }.record (.read p data)
    have buffered : Tidy H fleetKey τ := by
      refine Tidy.record { h.tidy with obuf := fun {sid' buf'} hb' => ?_ } rfl
      cases GoMap.of_get?_set hb'
      case inr hb' => exact h.tidy.obuf hb'.right
      case inl hb' =>
        obtain ⟨rfl, rfl⟩ := hb'
        exact ⟨List.append_ne_nil_of_right_ne_nil _ full, by simp [hp]⟩
    have lossless : Lossless H G fleetKey τ := h.lossless.buffer hp
    have armed : ∀ sid' ≠ p.sid, (τ.obuf.get? sid').isSome → (τ.oflush.get? sid').isSome := by
      intro sid' hne
      simpa [τ, State.record, hne] using h.armed sid'
    simp only
    split
    case isTrue => exact ⟨buffered.flush, lossless.flush buffered, .flush armed⟩
    case isFalse =>
      split
      case isTrue set =>
        refine ⟨buffered, lossless, fun sid' hb => ?_⟩
        by_cases hs : sid' = p.sid
        case pos => exact hs ▸ set
        case neg => exact armed sid' hs hb
      case isFalse unset =>
        refine ⟨?_, lossless.congr (fun _ => rfl) (fun _ => rfl) fun _ => rfl, fun sid' hb => ?_⟩
        case refine_1 => exact buffered.arm (by simp [τ, State.record, hp]) (by simpa using unset)
        case refine_2 =>
          by_cases hs : sid' = p.sid
          case pos => simp [hs]
          case neg => simpa [hs] using armed sid' hs hb

theorem insert {cmd : Value} {line : Bytes} {enc : Option Contrib.E2E} (h : Coalesced H G fleetKey σ)
    (hn : σ.ptys.get? sid = none) (he : enc = fleetKey.bind (Contrib.E2E.init H · sid)) :
    Coalesced H G fleetKey (σ.insert sid cmd line enc) := by
  refine ⟨h.tidy.insert hn he,
    h.lossless.congr (fun _ => rfl) (fun _ => reads_cons (by simp)) fun p => ?_, h.armed⟩
  by_cases hs : p.sid = sid
  case neg => simp [pending, State.insert, State.record, hs]
  case pos =>
    have empty : σ.obuf.get? sid = none := by
      cases hb : σ.obuf.get? sid
      case none => rfl
      case some =>
        obtain ⟨_, alive⟩ := h.tidy.obuf hb
        simp [hn] at alive
    simp [pending, State.insert, State.record, hs, hn, empty]

theorem spawn {cmd : Value} {line : Bytes} {enc : Option Contrib.E2E} (h : Coalesced H G fleetKey σ)
    (hn : σ.ptys.get? sid = none) (he : enc = fleetKey.bind (Contrib.E2E.init H · sid)) :
    Coalesced H G fleetKey (σ.spawn sid cmd line enc env) := by
  have tidy : Tidy H fleetKey (σ.spawn sid cmd line enc env) := h.tidy.spawn hn he
  have inserted : Coalesced H G fleetKey (σ.insert sid cmd line enc) := h.insert hn he
  rcases σ.spawn_cases sid cmd line enc env with ⟨_, e⟩ | ⟨_, e | ⟨p, killed, e⟩⟩ <;> rw [e] at tidy ⊢
  case inl         => exact ⟨tidy, h.lossless.send (by simp), h.armed⟩
  case inr.inl     => exact inserted
  case inr.inr     => exact inserted.record rfl (by simp)

theorem write (h : Coalesced H G fleetKey σ) : Coalesced H G fleetKey (σ.write p data env) := by
  unfold State.write
  split
  case h_1 => exact h.record rfl (by simp)
  case h_2 => exact h

theorem handle {m : Value} (h : Coalesced H G fleetKey σ)
    (e : handle H G int fleetKey σ m env = some σ') : Coalesced H G fleetKey σ' := by
  cases Does.of_handle e
  case nothing                => exact h
  case enrolled               => exact ⟨{ h.tidy with }, h.lossless, h.armed⟩
  case spawned unused he _    => exact h.spawn unused he
  case refused                => exact h.send (by simp) (by simp)
  case typed                  => exact h.write
  case tampered               => exact h.e2eKill
  case resized                => exact h.record rfl (by simp)
  case closed                 => exact h.reap

-- The timer that fires is the one that is to flush its sid.
theorem timer {id : Nat} (h : Coalesced H G fleetKey σ) (ht : σ.timers.get? id = some sid) :
    Coalesced H G fleetKey ({ σ with timers := σ.timers.delete id }.flush G sid nonce) := by
  have set : σ.oflush.get? sid = some id := (h.tidy.timers ht).left
  have fired : { σ with timers := σ.timers.delete id }.cancelTimer sid = σ.cancelTimer sid := by
    have once : (σ.timers.delete id).delete id = σ.timers.delete id :=
      GoMap.delete_of_none (by simp)
    simp only [State.cancelTimer, set, once]
  have same : { σ with timers := σ.timers.delete id }.flush G sid nonce = σ.flush G sid nonce := by
    simp only [State.flush, fired]
  rw [same]
  exact h.flush

theorem step {l : Label} (h : Coalesced H G fleetKey σ)
    (e : step H G int fleetKey σ l = some σ') : Coalesced H G fleetKey σ' := by
  cases l <;> simp only [Contrib.step] at e
  case frame m env =>
    split at e <;> cases e
    case isTrue =>
      cases hm : Contrib.handle H G int fleetKey σ m env
      case none   => exact ⟨{ h.tidy with }, h.lossless, h.armed⟩
      case some _ => exact h.handle hm
  case readable =>
    obtain ⟨_, _, e⟩ := Option.bind_eq_some_iff.mp e
    cases e
    exact h.drain
  case timer id env =>
    obtain ⟨sid, ht, e⟩ := Option.bind_eq_some_iff.mp e
    cases e
    exact h.timer ht
  case heartbeat    => cases e; exact h.send (by simp) (by simp)
  case disconnected => cases e; exact ⟨{ h.tidy with }, h.lossless, h.armed⟩
  case shutdown =>
    cases e
    have stopped : Coalesced H G fleetKey { σ with pumping := false } :=
      ⟨{ h.tidy with }, h.lossless, h.armed⟩
    exact stopped.shutdown
  case pumpOut =>
    split at e <;> cases e
    case h_2 f outbox _ =>
      have taken : Coalesced H G fleetKey { σ with outbox } := ⟨{ h.tidy with }, h.lossless, h.armed⟩
      exact taken.record rfl (by simp)

end Coalesced

theorem coalesced_reachable (h : (system H G int fleetKey).Reachable σ) :
    Coalesced H G fleetKey σ := by
  refine h.invariant (I := Coalesced H G fleetKey) ?_ fun _ _ _ _ hi _ e => hi.step e
  rintro σ rfl
  refine ⟨?_, fun p _ => ⟨[], .nil, rfl⟩, by simp [Armed]⟩
  constructor <;> simp [live, owner, frames, Throughout.nil]

-- There is nothing about the sid in the tables, and no timer that is to flush it.
structure Gone (sid : String) (σ : State) : Prop where
  ptys   : σ.ptys.get? sid = none
  enc    : σ.enc.get? sid = none
  obuf   : σ.obuf.get? sid = none
  oflush : σ.oflush.get? sid = none
  timers : ∀ id, σ.timers.get? id ≠ some sid

theorem Tidy.gone (h : Tidy H fleetKey σ) (hp : σ.ptys.get? sid = none) : Gone sid σ := by
  have oflush : σ.oflush.get? sid = none := by
    cases ho : σ.oflush.get? sid
    case none => rfl
    case some =>
      have ⟨alive, _⟩ := h.oflush ho
      simp [hp] at alive
  refine ⟨hp, by rw [h.enc, hp]; rfl, ?_, oflush, fun id ht => ?_⟩
  case refine_1 =>
    cases hb : σ.obuf.get? sid
    case none => rfl
    case some =>
      have ⟨_, alive⟩ := h.obuf hb
      simp [hp] at alive
  case refine_2 => simp [(h.timers ht).left] at oflush

-- Whatever callbacks run in whatever order: what was read of a PTY that `e2e_kill` does not end is what
-- its out frames carry and what is buffered, which a timer is to flush. At most one exit frame is queued
-- of it, as the last of its frames, and there is nothing left of it then.
theorem coalescing_lossless (h : (system H G int fleetKey).Reachable σ) :
    (∀ p, (∀ f ∈ frames p σ.log, f.t ≠ "err") →
      ∃ b, Carries (payload H G fleetKey) (outs p σ.log) b ∧ b ++ pending σ p = reads p σ.log) ∧
    (∀ sid p buf, σ.ptys.get? sid = some p → σ.obuf.get? sid = some buf → buf ≠ [] →
      ∃ id, σ.oflush.get? sid = some id ∧ σ.timers.get? id = some sid) ∧
    (∀ p, ∀ f ∈ (frames p σ.log).dropLast, f.t ≠ "exit") ∧
    Throughout Owned σ.log ∧
    (∀ sid, σ.ptys.get? sid = none → Gone sid σ) ∧
    ∀ sid notify env, Gone sid (σ.reap G sid notify env) := by
  have coalesced := coalesced_reachable h
  refine ⟨coalesced.lossless, ?_, coalesced.tidy.last, coalesced.tidy.owned,
    fun _ => coalesced.tidy.gone, fun sid notify env => ?_⟩
  case refine_1 =>
    intro sid p buf _ hb _
    have ⟨id, ho⟩ := Option.isSome_iff_exists.mp (coalesced.armed sid (by simp [hb]))
    exact ⟨id, ho, (coalesced.tidy.oflush ho).right⟩
  case refine_2 =>
    have reaped : Coalesced H G fleetKey (σ.reap G sid notify env) := coalesced.reap
    refine reaped.tidy.gone ?_
    cases coalesced.tidy.reap_cases (G := G) sid notify env
    case inl hr =>
      rw [hr.right]
      exact hr.left
    case inr hr =>
      have ⟨p, hs, _, e⟩ := hr
      rw [e]
      cases notify <;> simp [State.ended, State.send, State.record, hs]

-- The PTY of a0 prints "ls", which a timer flushes, and then "x" before it ends.
theorem coalescing_lossless_sample :
    let env : Env := { nonce := fun _ => ⟨.replicate 12 0, rfl⟩ }
    let ls : List Label := [.frame (.dict [("t", .str "open"), ("sid", .str "a0")]) env,
      .readable ⟨0, "a0"⟩ (some [108, 115]) env, .timer 1 env, .readable ⟨0, "a0"⟩ (some [120]) env,
      .readable ⟨0, "a0"⟩ (some []) env]
    let l : List Msg := [{ t := "out", sid := "a0", data := "bHM=" },
      { t := "out", sid := "a0", data := "eA==" }, { t := "exit", sid := "a0", code := some 137 }]
    (∃ σ, (system sampleMac sampleGcm (fun _ => none) none).run {} ls = some σ ∧
      frames ⟨0, "a0"⟩ σ.log = l) ∧
      Carries (payload sampleMac sampleGcm none) (l.filter (·.t = "out")) [108, 115, 120] := by
  intro env ls l
  have ran : ((system sampleMac sampleGcm (fun _ => none) none).run {} ls).isSome := by decide
  have ⟨σ, e⟩ := Option.isSome_iff_exists.mp ran
  have queued : frames ⟨0, "a0"⟩ σ.log = l :=
    Transition.eq_of_run (f := fun σ => frames ⟨0, "a0"⟩ σ.log) e (by decide)
  have read : reads ⟨0, "a0"⟩ σ.log = [108, 115, 120] :=
    Transition.eq_of_run (f := fun σ => reads ⟨0, "a0"⟩ σ.log) e (by decide)
  have ended : pending σ ⟨0, "a0"⟩ = [] :=
    Transition.eq_of_run (f := (pending · ⟨0, "a0"⟩)) e (by decide)
  have ⟨whole, _⟩ := coalescing_lossless (.run (.init rfl) e)
  have ⟨b, carried, all⟩ := whole ⟨0, "a0"⟩ (by rw [queued]; decide)
  rw [outs, queued] at carried
  rw [ended, read, List.append_nil] at all
  exact ⟨⟨σ, e, queued⟩, all ▸ carried⟩

end Contrib
