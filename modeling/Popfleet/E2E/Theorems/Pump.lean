import Popfleet.Lib.Chunks
import Popfleet.E2E.Pump
import Popfleet.E2E.Theorems.Outputs

open Proto Program

namespace E2E

variable {κ : Type} [DecidableEq κ]

-- What a frame of a PTY carries.
def payload (σ : State κ) (p : Pty κ) (m : Msg) : Option Bytes :=
  carried σ.aead p m.data

def reads (log : List PumpEvent) : Bytes :=
  (log.filterMap fun | .read b => some b | _ => none).flatten

-- The out frames that were sent.
def sents (log : List PumpEvent) : List Msg :=
  log.filterMap fun | .out m true => some m | _ => none

-- What `pump` did, whether or not its frames were sent.
def acts (log : List PumpEvent) : List PumpEvent :=
  log.filter fun | .read _ => false | _ => true

-- After a send that failed no out frame follows.
def FailsOnce (l : List PumpEvent) : Prop :=
  l.Pairwise fun a a' => ∀ m m' sent, a = .out m false → a' ≠ .out m' sent

-- No send failed, and what was read was sent, is in the buffer or in the channel.
structure Whole (p : Pty κ) (s : Pump κ) (buf : Bytes) : Prop where
  chunks : ∀ b ∈ s.chunks, b ≠ []
  outs   : ∀ e ∈ acts s.log, ∃ m, e = .out m true
  read   : ∃ b, Carries (payload s.agent p) (sents s.log) b ∧ b ++ buf ++ s.chunks.flatten = reads s.log

-- The loop is over, and `ending` was done since. It ended with the output, or with a send that failed.
structure Over (p : Pty κ) (s : Pump κ) (ending : List PumpEvent) : Prop where
  events : ∃ outs failed, acts s.log = outs ++ failed ++ ending ∧ (∀ e ∈ outs, ∃ m, e = .out m true) ∧
    (failed = [] ∧ s.closed ∧ s.chunks = [] ∧ Carries (payload s.agent p) (sents s.log) (reads s.log) ∨
      ∃ m b, failed = [.out m false] ∧ Carries (payload s.agent p) (sents s.log) b ∧ b <+: reads s.log)

def exitFrame (p : Pty κ) (e : Exit) : Msg :=
  { t := "exit", sid := p.sid, code := some e.code }

-- What holds where the thread of `pump` is.
inductive Phase (p : Pty κ) (s : Pump κ) : List (Op κ) → Prop
  | loop {buf deadline} (whole : Whole p s buf) (armed : deadline = true ↔ buf ≠ [])
    (small : buf.length < flushBytes) : Phase p s [.pump p buf deadline]
  | flush {buf last} (whole : Whole p s buf) (eof : last = true → s.chunks = [] ∧ s.closed)
    (full : buf = [] → last = true) : Phase p s [.flush p buf last]
  | send {m buf last} (whole : Whole p s buf) (eof : last = true → s.chunks = [] ∧ s.closed)
    (carries : payload s.agent p m = some buf) : Phase p s [.sendOut p m last]
  | wait (ended : Over p s []) : Phase p s [.wait p]
  | forget {e} (ended : Over p s []) : Phase p s [.forget p, .send p.conn (exitFrame p e)]
  | exit {e} (ended : Over p s [.forgot]) : Phase p s [.send p.conn (exitFrame p e)]
  | done {e} (ended : Over p s [.forgot, .exit (exitFrame p e)]) : Phase p s []

variable {hkdf : Bytes → String → κ} {e2eKey : Bytes} {p : Pty κ} {s s' : Pump κ} {σ σ' : State κ}
  {op : Op κ} {i : Input} {ops rest : List (Op κ)} {r : Req κ} {l : PumpLabel κ} {m : Msg}
  {buf b : Bytes} {chunks : List Bytes} {ending : List PumpEvent}

theorem start_extends (e : start e2eKey σ r = some (σ', ops)) : Extends σ σ' := by
  revert e
  fun_cases start e2eKey σ r <;> intro e <;> cases e
  case case9 => exact ⟨List.suffix_cons .., rfl, id⟩
  all_goals exact ⟨List.suffix_refl _, rfl, id⟩

-- What the rest of the agent does and the reader leave a phase as it is.

theorem Phase.env (h : Phase p s ops) (whole : ∀ buf, Whole p s buf → Whole p s' buf)
    (ended : ∀ ending, Over p s ending → Over p s' ending)
    (eof : s.chunks = [] ∧ s.closed → s'.chunks = [] ∧ s'.closed)
    (carries : ∀ m b, payload s.agent p m = some b → payload s'.agent p m = some b) :
    Phase p s' ops := by
  cases h
  case loop hw ha hs  => exact .loop (whole _ hw) ha hs
  case flush hw he hf => exact .flush (whole _ hw) (eof ∘ he) hf
  case send hw he hc  => exact .send (whole _ hw) (eof ∘ he) (carries _ _ hc)
  case wait ho        => exact .wait (ended _ ho)
  case forget ho      => exact .forget (ended _ ho)
  case exit ho        => exact .exit (ended _ ho)
  case done ho        => exact .done (ended _ ho)

theorem Whole.extend (h : Whole p s buf) (he : Extends s.agent σ) :
    Whole p { s with agent := σ } buf := by
  have ⟨b, carried, read⟩ := h.read
  exact ⟨h.chunks, h.outs, b, carried.mono fun _ _ => he.carried, read⟩

theorem Over.extend (h : Over p s ending) (he : Extends s.agent σ) :
    Over p { s with agent := σ } ending := by
  have ⟨outs, failed, ha, ho, hf⟩ := h.events
  refine ⟨outs, failed, ha, ho, hf.imp ?_ ?_⟩
  case refine_1 =>
    rintro ⟨rfl, closed, empty, carried⟩
    exact ⟨rfl, closed, empty, carried.mono fun _ _ => he.carried⟩
  case refine_2 =>
    rintro ⟨m, b, rfl, carried, read⟩
    exact ⟨m, b, rfl, carried.mono fun _ _ => he.carried, read⟩

theorem Phase.extend (h : Phase p s ops) (he : Extends s.agent σ) : Phase p { s with agent := σ } ops :=
  h.env (fun _ hw => hw.extend he) (fun _ ho => ho.extend he) id fun _ _ => he.carried

theorem Phase.read (h : Phase p s ops) (hb : b ≠ []) (hc : s.closed = false) :
    Phase p { s with chunks := s.chunks ++ [b], log := s.log ++ [.read b] } ops := by
  have same : sents (s.log ++ [.read b]) = sents s.log := by simp [sents]
  have quiet : acts (s.log ++ [.read b]) = acts s.log := by simp [acts]
  have more : reads (s.log ++ [.read b]) = reads s.log ++ b := by simp [reads]
  refine h.env (fun buf hw => ?_) (fun ending ho => ?_) (by simp [hc]) fun _ _ => id
  case refine_1 =>
    have ⟨d, carried, read⟩ := hw.read
    refine ⟨?_, quiet ▸ hw.outs, d, same ▸ carried, ?_⟩
    case refine_1 => exact List.forall_mem_append.mpr ⟨hw.chunks, by simpa using hb⟩
    case refine_2 => simp [more, ← read]
  case refine_2 =>
    have ⟨outs, failed, ha, hs, hf⟩ := ho.events
    refine ⟨outs, failed, quiet ▸ ha, hs, .inr ?_⟩
    cases hf
    case inl hf => simp [hc] at hf
    case inr hf =>
      have ⟨m, d, hm, carried, read⟩ := hf
      exact ⟨m, d, hm, same ▸ carried, more ▸ read.trans (List.prefix_append ..)⟩

-- The loop gets a chunk.
theorem Whole.receive (h : Whole p s buf) (hc : s.chunks = b :: chunks) :
    Whole p { s with chunks } (buf ++ b) := by
  have ⟨d, carried, read⟩ := h.read
  have ⟨_, nonempty⟩ := List.forall_mem_cons.mp (hc ▸ h.chunks)
  exact ⟨nonempty, h.outs, d, carried, by simpa [hc] using read⟩

-- A frame with the buffer was sent.
theorem Whole.sent (h : Whole p s buf) (hm : payload s.agent p m = some buf) :
    Whole p { s with log := s.log ++ [.out m true] } [] := by
  have ⟨d, carried, read⟩ := h.read
  refine ⟨h.chunks, ?_, d ++ buf, ?_, ?_⟩
  case refine_1 =>
    simp only [acts, List.filter_append, List.forall_mem_append]
    exact ⟨h.outs, by simp⟩
  case refine_2 => simpa [sents] using carried.snoc hm
  case refine_3 => simpa [reads] using read

-- The output is over, and all of it was sent.
theorem Whole.ended (h : Whole p s []) (he : s.chunks = [] ∧ s.closed) : Over p s [] := by
  have ⟨d, carried, read⟩ := h.read
  obtain rfl : d = reads s.log := by simpa [he.left] using read
  exact ⟨acts s.log, [], by simp, h.outs, .inl ⟨rfl, he.right, he.left, carried⟩⟩

-- Or it was not.
theorem Whole.failed (h : Whole p s buf) : Over p { s with log := s.log ++ [.out m false] } [] := by
  have ⟨d, carried, read⟩ := h.read
  have sent : sents (s.log ++ [.out m false]) = sents s.log := by simp [sents]
  have same : reads (s.log ++ [.out m false]) = reads s.log := by simp [reads]
  refine ⟨acts s.log, [.out m false], by simp [acts], h.outs, .inr ⟨m, d, rfl, sent ▸ carried, ?_⟩⟩
  rw [same, ← read, List.append_assoc]
  exact List.prefix_append ..

theorem Over.append {e : PumpEvent} (h : Over p s ending) (he : e = .forgot ∨ ∃ m, e = .exit m) :
    Over p { s with log := s.log ++ [e] } (ending ++ [e]) := by
  have ⟨outs, failed, ha, ho, hf⟩ := h.events
  have sent : sents (s.log ++ [e]) = sents s.log := by
    obtain rfl | ⟨m, rfl⟩ := he <;> simp [sents]
  have same : reads (s.log ++ [e]) = reads s.log := by
    obtain rfl | ⟨m, rfl⟩ := he <;> simp [reads]
  have act : acts (s.log ++ [e]) = acts s.log ++ [e] := by
    obtain rfl | ⟨m, rfl⟩ := he <;> simp [acts]
  refine ⟨outs, failed, ?_, ho, ?_⟩
  case refine_1 => simp only [act, ha, List.append_assoc]
  case refine_2 => simpa only [sent, same] using hf

-- Draining the channel takes nothing that is still to be sent.
theorem Phase.drain (h : Phase p s ops) (hn : ops.any Op.looping = false) :
    Phase p { s with chunks := s.chunks.tail } ops := by
  have drained {ending : List PumpEvent} (ho : Over p s ending) :
      Over p { s with chunks := s.chunks.tail } ending := by
    have ⟨outs, failed, ha, hs, hf⟩ := ho.events
    refine ⟨outs, failed, ha, hs, hf.imp_left ?_⟩
    rintro ⟨rfl, closed, empty, carried⟩
    exact ⟨rfl, closed, by simp [empty], carried⟩
  cases h
  case loop | flush | send => simp [Op.looping] at hn
  case wait ho   => exact .wait (drained ho)
  case forget ho => exact .forget (drained ho)
  case exit ho   => exact .exit (drained ho)
  case done ho   => exact .done (drained ho)

theorem Phase.close (h : Phase p s ops) : Phase p { s with closed := true } ops := by
  refine h.env (fun _ hw => ⟨hw.chunks, hw.outs, hw.read⟩) (fun _ ho => ?_) (fun he => ⟨he.left, rfl⟩)
    fun _ _ => id
  have ⟨outs, failed, ha, hs, hf⟩ := ho.events
  refine ⟨outs, failed, ha, hs, hf.imp_left ?_⟩
  rintro ⟨rfl, _, carried⟩
  exact ⟨rfl, rfl, carried⟩

theorem Phase.idle (h : Phase p s ops) (ops' : List (Op κ)) : Phase p { s with ops := ops' } ops :=
  h.env (fun _ hw => ⟨hw.chunks, hw.outs, hw.read⟩) (fun _ ho => ⟨ho.events⟩) id fun _ _ => id

-- Each section leads to the phase of the next one.
theorem Phase.advance (h : Phase p s (op :: rest)) (hr : receive s.chunks s.closed op i = some chunks)
    (e : exec hkdf e2eKey s.agent op i = some (σ, ops)) :
    Phase p { s with agent := σ, chunks, log := s.log ++ pumpEvents op i } (ops ++ rest) := by
  have grown : Extends s.agent σ := (Exec.of e).extends
  cases h
  case loop buf deadline whole armed small =>
    have silent : s.log ++ pumpEvents (.pump p buf deadline) i = s.log := List.append_nil _
    rw [silent]
    cases i <;> simp only [receive] at hr <;> simp only [exec] at e
    case chunk b =>
      split at hr
      case h_1 => contradiction
      case h_2 b' chunks' hc =>
        obtain ⟨same, rest⟩ := Option.ite_none_right_eq_some.mp hr
        cases same
        cases rest
        cases e
        have got : Whole p { s with chunks } (buf ++ b) := whole.receive hc
        have nonempty : buf ++ b ≠ [] :=
          List.append_ne_nil_of_right_ne_nil _ (whole.chunks b (hc ▸ List.mem_cons_self))
        split
        case isTrue  => exact .flush got (by simp) (absurd · nonempty)
        case isFalse => exact .loop got (by simp [nonempty]) (by omega)
    case deadline =>
      cases hr
      cases deadline <;> cases e
      exact .flush whole (by simp) (absurd · (armed.mp rfl))
    case eof =>
      obtain ⟨⟨empty, closed⟩, rest⟩ := Option.ite_none_right_eq_some.mp hr
      cases rest
      cases e
      exact .flush (empty ▸ whole) (fun _ => ⟨rfl, closed⟩) (by simp)
    all_goals contradiction
  case flush buf last whole eof full =>
    have silent : s.log ++ pumpEvents (.flush p buf last) i = s.log := List.append_nil _
    rw [silent]
    cases hr
    by_cases empty : buf = []
    case pos =>
      obtain rfl : last = true := full empty
      subst empty
      cases e
      exact .wait (whole.ended (eof rfl))
    case neg =>
      simp only [exec, if_neg empty] at e
      split at e
      case h_1 hk =>
        cases e
        exact .send whole eof (by simp [payload, carried, hk, Base64.decode_encode])
      case h_2 k nonce ct hk =>
        obtain ⟨⟨aead, data⟩, sealed, e⟩ := Option.bind_eq_some_iff.mp e
        cases e
        refine .send (whole.extend grown) eof ?_
        simpa [payload, carried, hk, State.record] using openWire_sealPlain sealed
      case h_3 => contradiction
  case send m buf last whole eof carries =>
    cases hr
    have sent (e : exec hkdf e2eKey s.agent (.sendOut p m last) .done = some (σ, ops)) :
        Phase p { s with agent := σ, log := s.log ++ [.out m true] } (ops ++ []) := by
      have left : Whole p { s with agent := σ, log := s.log ++ [.out m true] } [] :=
        (whole.sent carries).extend grown
      cases last <;> cases e
      case true  => exact .wait (left.ended (eof rfl))
      case false => exact .loop left (by simp) (by decide)
    cases i
    case failed =>
      cases e
      exact .wait whole.failed
    all_goals exact sent e
  case wait ended =>
    have silent : s.log ++ pumpEvents (.wait p) i = s.log := List.append_nil _
    rw [silent]
    cases hr
    cases i <;> simp only [exec] at e
    case exit x =>
      cases e
      exact .forget (ended.extend grown)
    all_goals contradiction
  case forget x ended =>
    cases hr
    cases e
    exact .exit ((ended.append (.inl rfl)).extend grown)
  case exit x ended =>
    cases hr
    have exited : Phase p { s with agent := σ, log := s.log ++ [.exit (exitFrame p x)] } [] :=
      .done ((ended.append (.inr ⟨_, rfl⟩)).extend grown)
    cases i <;> cases e <;> exact exited

theorem Phase.step (h : Phase p s s.ops) (e : s.step hkdf e2eKey l = some s') : Phase p s' s'.ops := by
  cases l <;> simp only [Pump.step] at e
  case read b =>
    have ⟨⟨hb, _, hc⟩, e⟩ := Option.ite_none_right_eq_some.mp e
    cases e
    exact h.read hb (by simpa using hc)
  case readErr =>
    have ⟨_, e⟩ := Option.ite_none_left_eq_some.mp e
    cases e
    exact h.close
  case step i =>
    split at e
    case h_1 => contradiction
    case h_2 op rest head =>
      simp only [Option.bind_eq_bind, Option.bind_eq_some_iff] at e
      obtain ⟨chunks, hr, ⟨σ, ops⟩, he, hs⟩ := e
      cases hs
      exact ((head ▸ h).advance hr he).idle _
  case drain =>
    have ⟨ended, e⟩ := Option.ite_none_left_eq_some.mp e
    cases e
    exact h.drain (by simpa using ended)
  case start r =>
    obtain ⟨⟨σ, ops⟩, he, hs⟩ := Option.map_eq_some_iff.mp e
    cases hs
    exact h.extend (start_extends he)
  case other op i =>
    obtain ⟨⟨σ, ops⟩, he, hs⟩ := Option.map_eq_some_iff.mp e
    cases hs
    exact h.extend (Exec.of he).extends

theorem phase_reachable (h : (Pump.system hkdf e2eKey p).Reachable s) : Phase p s s.ops := by
  refine h.invariant (I := fun s => Phase p s s.ops) ?_ fun _ _ _ _ hi _ e => hi.step e
  rintro s ⟨σ, rfl⟩
  exact .loop ⟨by simp, by simp [acts], [], .nil, rfl⟩ (by simp) (by decide)

-- Either the loop goes on or it is over.
theorem Phase.cases (h : Phase p s ops) :
    (ops.any Op.looping ∧ ∃ buf, Whole p s buf) ∨
      ∃ ending e, Over p s ending ∧ ending <+: [.forgot, .exit (exitFrame p e)] ∧
        (ops = [] → ending = [.forgot, .exit (exitFrame p e)]) := by
  cases h
  case loop hw _ _  => exact .inl ⟨rfl, _, hw⟩
  case flush hw _ _ => exact .inl ⟨rfl, _, hw⟩
  case send hw _ _  => exact .inl ⟨rfl, _, hw⟩
  case wait ho      => exact .inr ⟨_, .other, ho, by simp, by simp⟩
  case forget ho    => exact .inr ⟨_, .other, ho, by simp, by simp⟩
  case exit e ho    => exact .inr ⟨_, e, ho, by simp, by simp⟩
  case done ho      => exact .inr ⟨_, _, ho, List.prefix_refl _, fun _ => rfl⟩

theorem Over.carries (h : Over p s ending) :
    ∃ b, Carries (payload s.agent p) (sents s.log) b ∧ b <+: reads s.log := by
  have ⟨_, _, _, _, hf⟩ := h.events
  obtain ⟨_, _, _, carried⟩ | ⟨_, b, _, carried, read⟩ := hf
  case inl => exact ⟨_, carried, List.prefix_refl _⟩
  case inr => exact ⟨b, carried, read⟩

theorem FailsOnce.of_sent {l : List PumpEvent} (h : ∀ m, .out m false ∉ l) : FailsOnce l := by
  refine List.pairwise_of_forall_mem_list fun a ha _ _ m _ _ e => ?_
  subst e
  exact absurd ha (h m)

theorem Over.failsOnce (h : Over p s ending) (he : ∀ m sent, .out m sent ∉ ending) :
    FailsOnce (acts s.log) := by
  have ⟨outs, failed, ha, ho, hf⟩ := h.events
  have sent : ∀ m, .out m false ∉ outs := by
    intro m hm
    have ⟨_, ok⟩ := ho _ hm
    cases ok
  have single : FailsOnce failed := by
    obtain ⟨rfl, _⟩ | ⟨_, _, rfl, _⟩ := hf
    case inl => exact .nil
    case inr => exact List.pairwise_singleton ..
  rw [ha, List.append_assoc, FailsOnce, List.pairwise_append, List.pairwise_append]
  refine ⟨FailsOnce.of_sent sent, ⟨single, FailsOnce.of_sent fun m => he m false, ?_⟩, ?_⟩
  case refine_1 =>
    rintro _ _ _ hm _ m sent _ rfl
    exact he m sent hm
  case refine_2 =>
    rintro _ hm _ _ m _ _ rfl
    exact absurd hm (sent m)

-- How many sections `pump` has to run at most, once the reader is over, with so many chunks in the
-- channel.
def left (chunks : Nat) : List (Op κ) → Nat
  | .pump _ _ _ :: _        => 3 * chunks + 6
  | .flush _ _ false :: _   => 3 * chunks + 8
  | .sendOut _ _ false :: _ => 3 * chunks + 7
  | .flush _ _ true :: _    => 5
  | .sendOut _ _ true :: _  => 4
  | .wait _ :: _            => 3
  | ops                     => ops.length

theorem Pump.exists_step (head : s.ops = op :: rest)
    (hr : receive s.chunks s.closed op i = some chunks)
    (e : exec hkdf e2eKey s.agent op i = some (σ, ops)) :
    ∃ s', s.step hkdf e2eKey (.step i) = some s' ∧ s'.agent = σ ∧ s'.ops = ops ++ rest ∧
      s'.chunks = chunks ∧ s'.closed = s.closed := by
  let s' : Pump κ := { s with agent := σ, ops := ops ++ rest, chunks, log := s.log ++ pumpEvents op i }
  exact ⟨s', by simp [step, head, hr, e, s'], rfl, rfl, rfl, rfl⟩

variable (hkdf e2eKey) in
-- Once the reader is over there is an answer that leads on.
theorem Phase.progress (h : Phase p s ops) (head : s.ops = ops) (hn : ops ≠ []) (hc : s.closed) :
    ∃ i s', s.step hkdf e2eKey (.step i) = some s' ∧
      left s'.chunks.length s'.ops < left s.chunks.length ops ∧ s'.closed := by
  have next {op rest i chunks σ ops} (head : s.ops = op :: rest)
      (hr : receive s.chunks s.closed op i = some chunks)
      (e : exec hkdf e2eKey s.agent op i = some (σ, ops))
      (hl : left chunks.length (ops ++ rest) < left s.chunks.length (op :: rest)) :
      ∃ i s', s.step hkdf e2eKey (.step i) = some s' ∧
        left s'.chunks.length s'.ops < left s.chunks.length (op :: rest) ∧ s'.closed := by
    obtain ⟨s', e, _, ho, hs, closed⟩ := Pump.exists_step head hr e
    exact ⟨i, s', e, by rwa [ho, hs], closed.trans hc⟩
  cases h
  case loop buf deadline _ _ _ =>
    by_cases hs : s.chunks = []
    case pos =>
      have got : receive s.chunks s.closed (.pump p buf deadline) .eof = some [] := by
        simp [receive, hs, hc]
      exact next head got rfl (by simp [left])
    case neg =>
      obtain ⟨b, chunks, hs⟩ := List.exists_cons_of_ne_nil hs
      have got : receive s.chunks s.closed (.pump p buf deadline) (.chunk b) = some chunks := by
        simp [receive, hs]
      refine next head got rfl ?_
      split <;> simp only [left, hs, List.cons_append, List.length_cons] <;> omega
  case flush buf last _ _ full =>
    by_cases empty : buf = []
    case pos =>
      obtain rfl : last = true := full empty
      exact next (i := .done) head rfl (by simp only [exec, if_pos empty]; rfl) (by simp [left])
    case neg =>
      cases hk : p.enc
      case none =>
        refine next (i := .done) head rfl (by simp only [exec, if_neg empty, hk]; rfl) ?_
        cases last <;> simp [left]
      case some k =>
        refine next (i := .drawn (.replicate nonceLen 0)) head rfl
          (by simp only [exec, if_neg empty, hk, sealPlain]; rfl) ?_
        cases last <;> simp [left]
  case send m buf last _ _ _ =>
    refine next (i := .done) head rfl rfl ?_
    cases last <;> simp [left]
  case wait _   => exact next (i := .exit .other) head rfl rfl (by simp [left])
  case forget _ => exact next (i := .done) head rfl rfl (by simp [left])
  case exit _   => exact next (i := .done) head rfl rfl (by simp [left])
  case done     => contradiction

theorem exists_return_of_closed (h : (Pump.system hkdf e2eKey p).Reachable s) (hc : s.closed) :
    ∃ ls s', (Pump.system hkdf e2eKey p).run s ls = some s' ∧ s'.ops = [] := by
  generalize hn : left s.chunks.length s.ops = n
  induction n using Nat.strongRecOn generalizing s
  case ind n hi =>
    by_cases ended : s.ops = []
    case pos => exact ⟨[], s, rfl, ended⟩
    case neg =>
      have ⟨i, s₁, e, less, closed⟩ := (phase_reachable h).progress hkdf e2eKey rfl ended hc
      replace e : (Pump.system hkdf e2eKey p).step s (.step i) = some s₁ := e
      have ⟨ls, s', e', ended⟩ := hi _ (hn ▸ less) (h.step trivial e) closed rfl
      exact ⟨.step i :: ls, s', Transition.run_cons_eq_some.mpr ⟨s₁, e, e'⟩, ended⟩

-- `pump` can return from wherever it is.
theorem exists_return (h : (Pump.system hkdf e2eKey p).Reachable s) :
    ∃ ls s', (Pump.system hkdf e2eKey p).run s ls = some s' ∧ s'.ops = [] := by
  by_cases hc : s.closed
  case pos => exact exists_return_of_closed h hc
  case neg =>
    have e : (Pump.system hkdf e2eKey p).step s .readErr = some { s with closed := true } := by
      simp [Pump.system, Pump.step, hc]
    have ⟨ls, s', e', ended⟩ := exists_return_of_closed (h.step trivial e) rfl
    exact ⟨.readErr :: ls, s', Transition.run_cons_eq_some.mpr ⟨_, e, e'⟩, ended⟩

-- For every way in which reads, deadlines, sends and the rest of the agent take turns: the out frames
-- that were sent carry what was read up to somewhere, and all of it when the loop ends without a failed
-- send, after which there is no other. The deadline is armed while the buffer has something in it, less
-- than a flush. `pump` forgets the sid once and then sends its exit frame, after all else, and it can
-- always get there.
theorem pump_lossless (h : (Pump.system hkdf e2eKey p).Reachable s) :
    (∃ b, Carries (payload s.agent p) (sents s.log) b ∧ b <+: reads s.log) ∧
    (s.ops.any Op.looping = false → (∀ m, .out m false ∉ s.log) →
      Carries (payload s.agent p) (sents s.log) (reads s.log)) ∧
    FailsOnce (acts s.log) ∧
    (∀ buf deadline rest, s.ops = .pump p buf deadline :: rest →
      (deadline = true ↔ buf ≠ []) ∧ buf.length < flushBytes) ∧
    ∃ outs ending e, acts s.log = outs ++ ending ∧ (∀ a ∈ outs, ∃ m sent, a = .out m sent) ∧
      ending <+: [.forgot, .exit (exitFrame p e)] ∧
      (s.ops = [] → ending = [.forgot, .exit (exitFrame p e)]) ∧
      ∃ ls s', (Pump.system hkdf e2eKey p).run s ls = some s' ∧ s'.ops = [] := by
  have phase := phase_reachable h
  have returns := exists_return h
  have armed : ∀ buf deadline rest, s.ops = .pump p buf deadline :: rest →
      (deadline = true ↔ buf ≠ []) ∧ buf.length < flushBytes := by
    intro buf deadline rest head
    rw [head] at phase
    cases phase
    case loop small armed => exact ⟨armed, small⟩
  cases phase.cases
  case inl hl =>
    obtain ⟨looping, buf, whole⟩ := hl
    have ⟨b, carried, read⟩ := whole.read
    have sent : ∀ m, .out m false ∉ acts s.log := by
      intro m hm
      have ⟨_, ok⟩ := whole.outs _ hm
      cases ok
    refine ⟨⟨b, carried, ?_⟩, by simp [looping], .of_sent sent, armed, acts s.log, [], .other, by simp,
      fun a h => (whole.outs a h).imp fun m ok => ⟨true, ok⟩, by simp, ?_, returns⟩
    case refine_1 =>
      rw [← read, List.append_assoc]
      exact List.prefix_append ..
    case refine_2 => exact fun done => by simp [done] at looping
  case inr ho =>
    obtain ⟨ending, e, ended, hp, done⟩ := ho
    have others : ∀ m sent, .out m sent ∉ ending := by
      intro m sent hm
      simpa using hp.subset hm
    have ⟨outs, failed, ha, ho, hf⟩ := ended.events
    refine ⟨ended.carries, fun _ unfailed => ?_, ended.failsOnce others, armed, outs ++ failed, ending, e,
      ha, ?_, hp, done, returns⟩
    case refine_1 =>
      obtain ⟨_, _, _, carried⟩ | ⟨m, b, rfl, _⟩ := hf
      case inl => exact carried
      case inr =>
        have acted : .out m false ∈ acts s.log := by simp [ha]
        exact absurd (List.mem_of_mem_filter acted) (unfailed m)
    case refine_2 =>
      refine List.forall_mem_append.mpr ⟨fun a h => (ho a h).imp fun m ok => ⟨true, ok⟩, ?_⟩
      obtain ⟨rfl, _⟩ | ⟨m, _, rfl, _⟩ := hf
      case inl => simp
      case inr => exact List.forall_mem_singleton.mpr ⟨m, false, rfl⟩

-- A shell that prints a line and exits.
theorem pump_lossless_sample :
    let p : Pty (Bytes × String) := ⟨0, 0, "a0", none⟩
    let ls : List (PumpLabel (Bytes × String)) := [.read [104, 105], .step (.chunk [104, 105]),
      .step .deadline, .step .done, .step .done, .readErr, .step .eof, .step .done,
      .step (.exit (.exited 0)), .step .done, .step .done]
    ∃ s, (Pump.system Prod.mk [] p).run { agent := {}, ops := [.pump p [] false] } ls = some s ∧
      s.ops = [] ∧ Carries (payload s.agent p) (sents s.log) [104, 105] := by
  intro p ls
  cases e : (Pump.system Prod.mk [] p).run { agent := {}, ops := [.pump p [] false] } ls
  case none => contradiction
  case some s =>
    have reachable : (Pump.system Prod.mk [] p).Reachable s :=
      Transition.Reachable.run (.init ⟨{}, rfl⟩) e
    have ops : s.ops = [] := Transition.eq_of_run (f := Pump.ops) e (by decide)
    have log : s.log = [.read [104, 105], .out { t := "out", sid := "a0", data := "aGk=" } true, .forgot,
        .exit { t := "exit", sid := "a0", code := some 0 }] :=
      Transition.eq_of_run (f := Pump.log) e (by decide)
    have ⟨_, whole, _⟩ := pump_lossless reachable
    have carries := whole (by simp [ops]) (by simp [log])
    rw [show reads s.log = [104, 105] by simp [log, reads]] at carries
    exact ⟨s, rfl, ops, carries⟩

-- The steps of the agent while `pump` runs as one of its threads.
def Runs (t : Tid) : Label (Req κ) Input → Prop
  | .start t' _         => t' ≠ t
  | .step t' (.chunk b) => t' = t → b ≠ []
  | _                   => True

-- The sections from which the loop gets to its next iteration.
def Op.continues : Op κ → Bool
  | .pump _ _ _                        => true
  | .flush _ _ last | .sendOut _ _ last => !last
  | _                                  => false

theorem Phase.ends (h : Phase p s (op :: rest)) (hn : op.continues = false)
    (e : exec hkdf e2eKey σ op i = some (σ', ops)) : ∀ o ∈ ops ++ rest, o.continues = false := by
  cases h
  case loop => contradiction
  case flush buf last _ _ _ =>
    obtain rfl : last = true := by simpa [Op.continues] using hn
    by_cases empty : buf = []
    case pos =>
      simp only [exec, if_pos empty] at e
      cases e
      simp [Op.continues]
    case neg =>
      simp only [exec, if_neg empty] at e
      split at e
      case h_1 => cases e; simp [Op.continues]
      case h_2 =>
        obtain ⟨_, _, e⟩ := Option.bind_eq_some_iff.mp e
        cases e
        simp [Op.continues]
      case h_3 => contradiction
  case send last _ _ _ =>
    obtain rfl : last = true := by simpa [Op.continues] using hn
    cases i <;> cases e <;> simp [Op.continues]
  case wait =>
    cases i <;> cases e
    simp [Op.continues]
  case forget => cases e; simp [Op.continues]
  case exit => cases i <;> cases e <;> simp

-- The thread `t` is where `pump` is, which has read nothing that the loop has not got.
structure Mirrors (s : Pump κ) (c : Config (State κ) (Op κ)) (t : Tid) : Prop where
  agent  : s.agent = c.shared
  ops    : s.ops = c.procs t
  chunks : s.chunks = []
  closed : s.closed → ∀ o ∈ s.ops, o.continues = false

-- The reader reads what the section gets.
theorem exists_receive (h : (Pump.system hkdf e2eKey p).Reachable s) (head : s.ops = op :: rest)
    (hs : s.chunks = []) (hc : s.closed → ∀ o ∈ s.ops, o.continues = false)
    (hi : ∀ b, i = .chunk b → b ≠ []) (e : exec hkdf e2eKey s.agent op i = some (σ, ops)) :
    ∃ s₁, (Pump.system hkdf e2eKey p).Reachable s₁ ∧ s₁.agent = s.agent ∧ s₁.ops = s.ops ∧
      receive s₁.chunks s₁.closed op i = some [] ∧
      (s₁.closed → ∀ o ∈ ops ++ rest, o.continues = false) := by
  have phase := head ▸ phase_reachable h
  have kept (closed : s.closed) : ∀ o ∈ ops ++ rest, o.continues = false :=
    phase.ends (hc closed _ (head ▸ List.mem_cons_self)) e
  cases op
  case pump p' buf deadline =>
    have opened : s.closed = false := by
      cases closed : s.closed
      case false => rfl
      case true  => exact absurd (hc closed _ (head ▸ List.mem_cons_self)) (by simp [Op.continues])
    cases i
    case chunk b =>
      let s₁ : Pump κ := { s with chunks := [b], log := s.log ++ [.read b] }
      have read : (Pump.system hkdf e2eKey p).step s (.read b) = some s₁ := by
        simp [Pump.system, Pump.step, hs, hi b rfl, opened, s₁]
      exact ⟨s₁, h.step trivial read, rfl, rfl, by simp [receive, s₁], kept⟩
    case eof =>
      let s₁ : Pump κ := { s with closed := true }
      have read : (Pump.system hkdf e2eKey p).step s .readErr = some s₁ := by
        simp [Pump.system, Pump.step, opened, s₁]
      cases phase
      case loop =>
        refine ⟨s₁, h.step trivial read, rfl, rfl, by simp [receive, s₁, hs], ?_⟩
        cases e
        simp [Op.continues]
    all_goals exact ⟨s, h, rfl, rfl, by simp [receive, hs], kept⟩
  all_goals exact ⟨s, h, rfl, rfl, by simp [receive, hs], kept⟩

theorem Mirrors.step {c c' : Config (State κ) (Op κ)} {l : Label (Req κ) Input} {t : Tid}
    (h : (Pump.system hkdf e2eKey p).Reachable s) (hm : Mirrors s c t) (hl : Runs t l)
    (e : (program hkdf e2eKey).system.step c l = some c') :
    ∃ s', (Pump.system hkdf e2eKey p).Reachable s' ∧ Mirrors s' c' t := by
  replace e := Step.of e
  cases e
  case start t' r σ ops idle e =>
    let s' : Pump κ := { s with agent := σ }
    have started : (Pump.system hkdf e2eKey p).step s (.start r) = some s' := by
      have e : start e2eKey s.agent r = some (σ, ops) := hm.agent ▸ e
      simp [Pump.system, Pump.step, e, s']
    refine ⟨s', h.step trivial started, rfl, ?_, hm.chunks, hm.closed⟩
    exact hm.ops.trans (Config.resume_procs.trans (if_neg (Ne.symm hl))).symm
  case step t' i op rest σ ops head e =>
    replace e : exec hkdf e2eKey s.agent op i = some (σ, ops) := hm.agent ▸ e
    by_cases ht : t' = t
    case neg =>
      let s' : Pump κ := { s with agent := σ }
      have other : (Pump.system hkdf e2eKey p).step s (.other op i) = some s' := by
        simp [Pump.system, Pump.step, e, s']
      refine ⟨s', h.step trivial other, rfl, ?_, hm.chunks, hm.closed⟩
      exact hm.ops.trans (Config.resume_procs.trans (if_neg (Ne.symm ht))).symm
    case pos =>
      subst ht
      have nonempty : ∀ b, i = .chunk b → b ≠ [] := by
        rintro b rfl
        exact hl rfl
      have ⟨s₁, h₁, agent, procs, got, closed⟩ :=
        exists_receive h (hm.ops.trans head) hm.chunks hm.closed nonempty e
      have ⟨s', e', shared, ho, hs, hc⟩ :=
        Pump.exists_step (procs.trans (hm.ops.trans head)) got (agent ▸ e)
      replace e' : (Pump.system hkdf e2eKey p).step s₁ (.step i) = some s' := e'
      refine ⟨s', h₁.step trivial e', shared, by simpa using ho, hs, fun ended => ?_⟩
      exact ho ▸ closed (hc ▸ ended)

-- In every run of the agent, the thread of a call of `pump` does what the loop of `Pump` does.
theorem pump_of_agent {c c' : Config (State κ) (Op κ)} {t : Tid}
    (head : c.procs t = [.pump p [] false])
    (h : ((program hkdf e2eKey).system.after c).ReachableUnder (fun _ l => Runs t l) c') :
    ∃ s, (Pump.system hkdf e2eKey p).Reachable s ∧ Mirrors s c' t := by
  refine h.invariant (I := fun c' => ∃ s, (Pump.system hkdf e2eKey p).Reachable s ∧ Mirrors s c' t) ?_ ?_
  case refine_1 =>
    rintro c rfl
    exact ⟨_, .init ⟨c.shared, rfl⟩, rfl, head.symm, rfl, by simp⟩
  case refine_2 =>
    rintro c l c' _ ⟨s, hr, hm⟩ hl e
    exact hm.step hr hl e

end E2E
