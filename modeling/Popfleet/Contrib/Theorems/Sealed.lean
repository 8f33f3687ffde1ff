import Popfleet.Contrib.Theorems.Handling
import Popfleet.V1e.Theorems.Interop

open Proto V1e

namespace Contrib

-- What was read from a PTY.
def reads (p : Pty) (log : List Event) : Bytes :=
  (log.filterMap fun | .read q data => if q = p then some data else none | _ => none).reverse.flatten

-- An out frame carries bytes that were read from a PTY of its sid, sealed under the key of that sid.
def Sealed (H : Mac 32) (G : Gcm tagLen) (fleetKey : Bytes) (log : List Event) (f : Msg) : Prop :=
  ∃ p enc nonce data, p.sid = f.sid ∧ Contrib.E2E.init H fleetKey f.sid = some enc ∧
    nonce.length = nonceLen ∧ enc.sealPlain G nonce data = some f.data ∧ data <:+: reads p log

-- A PTY may run a command line: there was no `cmd`, or it opened under the key of the sid.
def Authorised (H : Mac 32) (G : Gcm tagLen) (fleetKey : Bytes) (sid : String) (cmd : Value)
    (cmdline : Bytes) : Prop :=
  (cmd.truthy = false ∧ cmdline = []) ∨
    ∃ enc, Contrib.E2E.init H fleetKey sid = some enc ∧ openValue G enc cmd = some cmdline

-- Every PTY has the AEAD of its sid, and nothing is buffered for a sid without a PTY.
structure Keyed (H : Mac 32) (G : Gcm tagLen) (fleetKey : Bytes) (σ : State) : Prop where
  enc     : ∀ {sid enc}, σ.enc.get? sid = some enc → Contrib.E2E.init H fleetKey sid = some enc
  ptys    : ∀ {sid p}, σ.ptys.get? sid = some p → p.sid = sid ∧ (σ.enc.get? sid).isSome
  obuf    : ∀ {sid buf}, σ.obuf.get? sid = some buf →
    ∃ p, σ.ptys.get? sid = some p ∧ buf <:+ reads p σ.log
  queued  : ∀ f, .queued f ∈ σ.log → f.t = "out" → Sealed H G fleetKey σ.log f
  spawned : ∀ p cmd line, .spawned p cmd line ∈ σ.log → Authorised H G fleetKey p.sid cmd line
  outbox  : ∀ f ∈ σ.outbox, .queued f ∈ σ.log
  sent    : ∀ f, .sent f ∈ σ.log → .queued f ∈ σ.log

variable {H : Mac 32} {G : Gcm tagLen} {int : String → Option Int} {fleetKey : Bytes}
  {σ σ' : State} {sid : String} {p q : Pty} {data : Bytes} {log log' : List Event} {e : Event} {f : Msg}
  {env : Env} {nonce : Nonce}

theorem reads_cons (h : ∀ data, e ≠ .read p data) : reads p (e :: log) = reads p log := by
  unfold reads
  rw [List.filterMap_cons_none]
  split
  case h_2 => rfl
  case h_1 q data =>
    rw [if_neg]
    rintro rfl
    exact h data rfl

theorem reads_read : reads p (.read p data :: log) = reads p log ++ data := by
  simp [reads]

theorem reads_mono (h : log <:+ log') : reads p log <+: reads p log' := by
  obtain ⟨l, rfl⟩ := h
  simp [reads, List.filterMap_append]

theorem Sealed.mono (h : Sealed H G fleetKey log f) (hl : log <:+ log') :
    Sealed H G fleetKey log' f := by
  have ⟨p, enc, nonce, data, hp, he, hn, hs, hd⟩ := h
  exact ⟨p, enc, nonce, data, hp, he, hn, hs, hd.trans (reads_mono hl).isInfix⟩

namespace Keyed

-- Recording something else than what is read, queued, sent or spawned.
theorem record (h : Keyed H G fleetKey σ) (hr : ∀ p data, e ≠ .read p data)
    (hq : ∀ f, e = .queued f → f.t = "out" → Sealed H G fleetKey σ.log f)
    (hs : ∀ p cmd line, e = .spawned p cmd line → Authorised H G fleetKey p.sid cmd line)
    (ho : ∀ f, e = .sent f → .queued f ∈ σ.log) : Keyed H G fleetKey (σ.record e) where
  enc       := h.enc
  ptys      := h.ptys
  obuf hb   := by
    have ⟨p, hp, hb⟩ := h.obuf hb
    exact ⟨p, hp, by simpa [State.record, reads_cons (hr p)] using hb⟩
  queued f hf ht := by
    refine Sealed.mono ?_ (List.suffix_cons e σ.log)
    cases hf
    case head    => exact hq f rfl ht
    case tail hf => exact h.queued f hf ht
  spawned p cmd line hp := by
    cases hp
    case head    => exact hs p cmd line rfl
    case tail hp => exact h.spawned p cmd line hp
  outbox f hf := List.mem_cons_of_mem _ (h.outbox f hf)
  sent f hf := by
    refine List.mem_cons_of_mem _ ?_
    cases hf
    case head    => exact ho f rfl
    case tail hf => exact h.sent f hf

theorem send (h : Keyed H G fleetKey σ) (hf : f.t = "out" → Sealed H G fleetKey σ.log f) :
    Keyed H G fleetKey (σ.send f) := by
  have recorded : Keyed H G fleetKey (σ.record (.queued f)) := by
    refine h.record (by simp) ?_ (by simp) (by simp)
    rintro f' ⟨⟩
    exact hf
  refine { recorded with outbox := fun f' hm => ?_ }
  cases List.mem_append.mp hm
  case inl hm => exact recorded.outbox f' hm
  case inr hm =>
    cases List.mem_singleton.mp hm
    exact List.mem_cons_self

theorem deleteObuf (h : Keyed H G fleetKey σ) :
    Keyed H G fleetKey { σ with obuf := σ.obuf.delete sid } :=
  { h with obuf := fun hb => h.obuf (GoMap.of_get?_delete hb).right }

theorem cancelTimer (h : Keyed H G fleetKey σ) : Keyed H G fleetKey (σ.cancelTimer sid) :=
  { h with }

-- What is flushed belongs to a PTY, whose AEAD is there to seal it.
theorem flush (h : Keyed H G fleetKey σ) : Keyed H G fleetKey (σ.flush G sid nonce) := by
  unfold State.flush
  have timed : Keyed H G fleetKey (σ.cancelTimer sid) := h.cancelTimer
  generalize σ.cancelTimer sid = σ at timed ⊢
  simp only
  split
  case h_1 => exact timed
  case h_2 buf hb =>
    split
    case isTrue => exact timed.deleteObuf
    case isFalse =>
      have ⟨p, hp, suffix⟩ := timed.obuf hb
      have ⟨named, keyed⟩ := timed.ptys hp
      have ⟨enc, he⟩ := Option.isSome_iff_exists.mp keyed
      simp only [he]
      split
      case h_2 => exact timed.deleteObuf
      case h_1 data hd =>
        exact timed.deleteObuf.send fun _ =>
          ⟨p, enc, nonce.val, buf, named, timed.enc he, nonce.property, hd, suffix.isInfix⟩

end Keyed

theorem State.flush_obuf : (σ.flush G sid nonce).obuf.get? sid = none := by
  unfold State.flush
  generalize σ.cancelTimer sid = σ
  simp only
  split
  case h_1 h => exact h
  case h_2 =>
    split
    case isTrue  => simp
    case isFalse => split <;> simp [State.send, State.record]

-- Which PTYs there are does not matter to a flush.
theorem State.flush_ptys {ptys : GoMap String Pty} :
    { σ with ptys }.flush G sid nonce = { σ.flush G sid nonce with ptys } := by
  simp only [State.flush, State.cancelTimer]
  split
  case h_1 => rfl
  case h_2 =>
    split
    case isTrue  => rfl
    case isFalse =>
      split
      case h_1 => rfl
      case h_2 => rfl

theorem State.flush_ptys_eq : (σ.flush G sid nonce).ptys = σ.ptys := by
  have same : σ.flush G sid nonce = { σ.flush G sid nonce with ptys := σ.ptys } := State.flush_ptys
  rw [same]

namespace Keyed

-- A PTY is forgotten together with its AEAD, once nothing is buffered for its sid.
theorem forget (h : Keyed H G fleetKey σ) (hb : σ.obuf.get? sid = none) (readers : GoMap Pty String) :
    Keyed H G fleetKey { σ with ptys := σ.ptys.delete sid, enc := σ.enc.delete sid, readers } where
  enc he  := h.enc (GoMap.of_get?_delete he).right
  ptys hp := by
    have ⟨hne, hp⟩ := GoMap.of_get?_delete hp
    have ⟨named, keyed⟩ := h.ptys hp
    exact ⟨named, by simpa [hne] using keyed⟩
  obuf {sid' buf} hb' := by
    have ⟨p, hp, suffix⟩ := h.obuf hb'
    have hne : sid' ≠ sid := by
      rintro rfl
      simp [hb] at hb'
    exact ⟨p, by simpa [hne] using hp, suffix⟩
  queued  := h.queued
  spawned := h.spawned
  outbox  := h.outbox
  sent    := h.sent

theorem reap {notify : Bool} (h : Keyed H G fleetKey σ) :
    Keyed H G fleetKey (σ.reap G sid notify env) := by
  unfold State.reap
  split
  case h_1 => exact h
  case h_2 p _ =>
    simp only [State.flush_ptys]
    have flushed : Keyed H G fleetKey (σ.flush G sid (env.nonce sid)) := h.flush
    have forgotten := flushed.forget State.flush_obuf ((σ.flush G sid (env.nonce sid)).readers.delete p)
    rw [State.flush_ptys_eq] at forgotten
    have killed := forgotten.record (e := .killed p (env.code p)) (by simp) (by simp) (by simp) (by simp)
    split
    case isFalse => exact killed
    case isTrue  => exact killed.send (by simp)

theorem e2eKill {why : String} (h : Keyed H G fleetKey σ) :
    Keyed H G fleetKey (σ.e2eKill G sid why env) :=
  (h.deleteObuf.send (by simp)).reap

theorem shutdown (h : Keyed H G fleetKey σ) : Keyed H G fleetKey (σ.shutdown G env) := by
  unfold State.shutdown
  generalize σ.ptys.keys = sids
  induction sids generalizing σ
  case nil       => exact h
  case cons hi   => exact hi h.reap

-- What is read from a PTY is buffered behind what was read from it before.
theorem buffer (h : Keyed H G fleetKey σ) (hp : σ.ptys.get? sid = some p) :
    Keyed H G fleetKey ({ σ with obuf := σ.obuf.set sid ((σ.obuf.get? sid).getD [] ++ data) }.record
      (.read p data)) := by
  have ⟨named, _⟩ := h.ptys hp
  have suffix : (σ.obuf.get? sid).getD [] <:+ reads p σ.log := by
    cases hb : σ.obuf.get? sid
    case none => exact List.nil_suffix
    case some buf =>
      have ⟨p', hp', suffix⟩ := h.obuf hb
      cases hp.symm.trans hp'
      exact suffix
  refine { h with
    obuf    := fun {sid' buf} hb => ?_
    queued  := fun f hf ht => ?_
    spawned := fun p cmd line hp => ?_
    outbox  := fun f hf => List.mem_cons_of_mem _ (h.outbox f hf)
    sent    := fun f hf => ?_ }
  case refine_1 =>
    cases GoMap.of_get?_set hb
    case inl hb =>
      obtain ⟨rfl, rfl⟩ := hb
      refine ⟨p, hp, ?_⟩
      simp only [State.record, reads_read]
      exact (List.suffix_append_inj_of_length_eq rfl).mpr ⟨suffix, rfl⟩
    case inr hb =>
      obtain ⟨hne, hb⟩ := hb
      have ⟨p', hp', suffix'⟩ := h.obuf hb
      have other : ∀ d, Event.read p data ≠ .read p' d := by
        rintro d ⟨⟩
        exact hne ((h.ptys hp').left.symm.trans named)
      exact ⟨p', hp', by simpa only [State.record, reads_cons other] using suffix'⟩
  case refine_2 =>
    cases hf with
    | tail _ hf => exact (h.queued f hf ht).mono (List.suffix_cons ..)
  case refine_3 =>
    cases hp with
    | tail _ hp => exact h.spawned p cmd line hp
  case refine_4 =>
    cases hf with
    | tail _ hf => exact List.mem_cons_of_mem _ (h.sent f hf)

theorem drain {data : Option Bytes} (h : Keyed H G fleetKey σ) :
    Keyed H G fleetKey (σ.drain G sid data env) := by
  unfold State.drain
  split
  case h_1 | h_2 => exact h
  case h_3 => exact h.reap
  case h_4 _ p data _ hp =>
    have buffered : Keyed H G fleetKey
        ({ σ with obuf := σ.obuf.set sid ((σ.obuf.get? sid).getD [] ++ data) }.record (.read p data)) :=
      h.buffer hp
    simp only
    split
    case isTrue => exact buffered.flush
    case isFalse =>
      split
      case isTrue  => exact buffered
      case isFalse => exact { buffered with }

theorem insert {enc : Contrib.E2E} {cmd : Value} {line : Bytes} (h : Keyed H G fleetKey σ)
    (hn : σ.ptys.get? sid = none) (he : Contrib.E2E.init H fleetKey sid = some enc)
    (ha : Authorised H G fleetKey sid cmd line) : Keyed H G fleetKey (σ.insert sid cmd line (some enc)) := by
  have started : Keyed H G fleetKey { σ with
      ptys    := σ.ptys.set sid ⟨σ.next, sid⟩
      enc     := σ.enc.set sid enc
      readers := σ.readers.set ⟨σ.next, sid⟩ sid
      next    := σ.next + 1 } := by
    refine { h with enc := fun he' => ?_, ptys := fun hp => ?_, obuf := fun {sid' buf} hb => ?_ }
    case refine_1 =>
      cases GoMap.of_get?_set he'
      case inl h =>
        obtain ⟨rfl, rfl⟩ := h
        exact he
      case inr hc => exact h.enc hc.right
    case refine_2 =>
      cases GoMap.of_get?_set hp
      case inl h =>
        obtain ⟨rfl, rfl⟩ := h
        simp
      case inr hc =>
        have ⟨named, keyed⟩ := h.ptys hc.right
        exact ⟨named, by simpa [hc.left] using keyed⟩
    case refine_3 =>
      have ⟨p, hp, suffix⟩ := h.obuf hb
      have hne : sid' ≠ sid := by
        rintro rfl
        simp [hn] at hp
      exact ⟨p, by simpa [hne] using hp, suffix⟩
  refine started.record (e := .spawned ⟨σ.next, sid⟩ cmd line) (by simp) (by simp) ?_ (by simp)
  rintro p cmd line ⟨⟩
  exact ha

theorem spawn {enc : Contrib.E2E} {cmd : Value} {line : Bytes} (h : Keyed H G fleetKey σ)
    (hn : σ.ptys.get? sid = none) (he : Contrib.E2E.init H fleetKey sid = some enc)
    (ha : Authorised H G fleetKey sid cmd line) :
    Keyed H G fleetKey (σ.spawn sid cmd line (some enc) env) := by
  have inserted := h.insert hn he ha
  rcases σ.spawn_cases sid cmd line (some enc) env with ⟨_, e⟩ | ⟨_, e | ⟨p, killed, e⟩⟩ <;> rw [e]
  case inl         => exact h.send (by simp)
  case inr.inl     => exact inserted
  case inr.inr     => exact inserted.record (by simp) (by simp) (by simp) (by simp)

theorem write {b : Bytes} (h : Keyed H G fleetKey σ) : Keyed H G fleetKey (σ.write p b env) := by
  unfold State.write
  split
  case h_1 => exact h.record (by simp) (by simp) (by simp) (by simp)
  case h_2 => exact h

theorem handle {m : Value} (h : Keyed H G fleetKey σ)
    (e : handle H G int (some fleetKey) σ m env = some σ') : Keyed H G fleetKey σ' := by
  cases Does.of_handle e
  case nothing  => exact h
  case enrolled => exact { h with }
  case refused  => exact h.send (by simp)
  case typed    => exact h.write
  case tampered => exact h.e2eKill
  case resized  => exact h.record (by simp) (by simp) (by simp) (by simp)
  case closed   => exact h.reap
  case spawned sid cmd line enc unused he hl =>
    cases enc
    case none     => simp [Contrib.E2E.init_eq] at he
    case some enc =>
      exact h.spawn unused he.symm ((hl enc rfl).imp_right fun opens => ⟨enc, he.symm, opens⟩)

theorem step {l : Label} (h : Keyed H G fleetKey σ)
    (e : step H G int (some fleetKey) σ l = some σ') : Keyed H G fleetKey σ' := by
  cases l <;> simp only [Contrib.step] at e
  case frame m env =>
    split at e <;> cases e
    case isTrue =>
      cases hm : Contrib.handle H G int (some fleetKey) σ m env
      case none   => exact { h with }
      case some _ => exact h.handle hm
  case readable =>
    have ⟨_, _, e⟩ := Option.bind_eq_some_iff.mp e
    cases e
    exact h.drain
  case timer id env =>
    have ⟨_, _, e⟩ := Option.bind_eq_some_iff.mp e
    cases e
    have fired : Keyed H G fleetKey { σ with timers := σ.timers.delete id } := { h with }
    exact fired.flush
  case heartbeat => cases e; exact h.send (by simp)
  case disconnected => cases e; exact { h with }
  case shutdown =>
    cases e
    have stopped : Keyed H G fleetKey { σ with pumping := false } := { h with }
    exact stopped.shutdown
  case pumpOut =>
    split at e <;> cases e
    case h_2 f outbox ho =>
      have queued : .queued f ∈ σ.log := h.outbox f (ho ▸ List.mem_cons_self)
      have taken : Keyed H G fleetKey { σ with outbox } :=
        { h with outbox := fun f' hf => h.outbox f' (ho ▸ List.mem_cons_of_mem _ hf) }
      refine taken.record (by simp) (by simp) (by simp) ?_
      rintro f' ⟨⟩
      exact queued

end Keyed

theorem keyed_reachable (h : (system H G int (some fleetKey)).Reachable σ) : Keyed H G fleetKey σ := by
  refine h.invariant (I := Keyed H G fleetKey) ?_ fun _ _ _ _ hi _ e => hi.step e
  rintro σ rfl
  constructor <;> simp

end Contrib
